import PS5Torrent.Main.Action

/-!
# Replies

A reply is right if the body that is sent is the text that was composed, and
this is a JSON object. Where the length of a text is counted by hand it is wrong
(`not_complete_counted`); every other exit of the handlers is right
(`complete_handle_iff`). Texts are looked at as bytes: a name is written as it
is, whether it is UTF-8 or not.
-/

namespace PS5Torrent

open TorrentMgr Decimal Json

variable {c : Console} {req : HttpRequest} {m : TorrentMgr} {s text : Bytes} {status size n : ℕ}

/-- The body that is sent is the text of the reply, and this is a JSON object. -/
structure Reply.Complete (r : Reply) : Prop where
  body : ∀ memory, (r.response memory).body = r.text
  object : ∃ members, IsText (.obj members) r.text

namespace Reply

theorem complete_json (h : ∃ members, IsText (.obj members) text) : (json status text).Complete where
  body _ := body_httpResponseNew_iff.2 rfl
  object := h

theorem complete_printed (hfit : text.length < size) (h : ∃ members, IsText (.obj members) text) :
    (printed status size text).Complete := by
  have htake : text.take (size - 1) = text := List.take_of_length_le (by omega)
  rw [printed, htake]
  exact complete_json h

/-- A counted length that is not that of the text gives another body. -/
theorem not_complete_counted (hlength : n ≠ text.length) : ¬(counted status text n).Complete :=
  fun h => hlength (body_httpResponseNew_iff.1 (h.body 0))

end Reply

/-! ## Objects -/

theorem isBody_lit {message : Bytes} (h : message.all fun b => decide (Plain b)) :
    IsBody message message :=
  isBody_of_plain fun b hb => of_decide_eq_true (List.all_eq_true.1 h b hb)

theorem isMember_of_plain (key : Bytes) {v : Value} (hkey : key.all fun b => decide (Plain b))
    (h : IsText v text) :
    IsMember (key, v) (chr '"' :: key ++ chr '"' :: chr ':' :: text) :=
  .mk (isBody_lit hkey) h

theorem isText_printInt (n : ℕ) : IsText (.num (print n)) (printInt n) := by
  rw [printInt, if_neg (by omega), Int.natAbs_natCast]
  exact .num (isNumber_print n)

theorem isObject_empty : ∃ members, IsText (.obj members) (lit "\x7b\x7d") := ⟨_, .obj .nil⟩

/-- An object with an error. -/
theorem isObject_error (h : IsBody s text) :
    ∃ members, IsText (.obj members) (lit "\x7b\"error\":\"" ++ text ++ lit "\"\x7d") := by
  have hobj := IsText.obj (.cons (isMember_of_plain (lit "error") rfl (.str h))
    .nil)
  have hopen : lit "\x7b\"error\":\"" =
      code '{' :: chr '"' :: lit "error" ++ [chr '"', chr ':', code '"'] := by decide
  have hclose : lit "\"\x7d" = [code '"', code '}'] := by decide
  refine ⟨[(lit "error", .str s)], ?_⟩
  rw [hopen, hclose]
  simpa [commas] using hobj

/-- The answer that something failed. -/
theorem isObject_failure (h : IsBody s text) :
    ∃ members, IsText (.obj members)
      (lit "\x7b\"success\":false,\"error\":\"" ++ text ++ lit "\"\x7d") := by
  have hobj := IsText.obj (.cons (isMember_of_plain (lit "success") rfl .false)
    (.cons (isMember_of_plain (lit "error") rfl (.str h)) .nil))
  have hopen : lit "\x7b\"success\":false,\"error\":\"" =
      code '{' :: chr '"' :: lit "success" ++ [chr '"', chr ':', code 'f', code 'a', code 'l',
        code 's', code 'e', code ',', chr '"'] ++ lit "error" ++ [chr '"', chr ':', code '"'] :=
    rfl
  have hclose : lit "\"\x7d" = [code '"', code '}'] := by decide
  refine ⟨[(lit "success", .bool false), (lit "error", .str s)], ?_⟩
  rw [hopen, hclose]
  simpa [commas] using hobj

/-- The answer that a torrent was added. -/
theorem isObject_added (id : ℕ) (h : IsBody s text) :
    ∃ members, IsText (.obj members) (lit "\x7b\"success\":true,\"id\":" ++ printInt id ++
      lit ",\"name\":\"" ++ text ++ lit "\"\x7d") := by
  have hobj := IsText.obj (.cons (isMember_of_plain (lit "success") rfl .true)
    (.cons (isMember_of_plain (lit "id") rfl (isText_printInt id))
      (.cons (isMember_of_plain (lit "name") rfl (.str h)) .nil)))
  have hopen : lit "\x7b\"success\":true,\"id\":" =
      code '{' :: chr '"' :: lit "success" ++ [chr '"', chr ':', code 't', code 'r', code 'u',
        code 'e', code ',', chr '"'] ++ lit "id" ++ [chr '"', chr ':'] := rfl
  have hname : lit ",\"name\":\"" =
      code ',' :: chr '"' :: lit "name" ++ [chr '"', chr ':', code '"'] := rfl
  have hclose : lit "\"\x7d" = [code '"', code '}'] := by decide
  refine ⟨[(lit "success", .bool true), (lit "id", .num (print id)), (lit "name", .str s)], ?_⟩
  rw [hopen, hname, hclose]
  simpa [commas] using hobj

/-- The answer that a call was made. -/
theorem isObject_action (id : ℕ) (h : IsBody s text) :
    ∃ members, IsText (.obj members) (lit "\x7b\"success\":true,\"action\":\"" ++ text ++
      lit "\",\"id\":" ++ printInt id ++ lit "\x7d") := by
  have hobj := IsText.obj (.cons (isMember_of_plain (lit "success") rfl .true)
    (.cons (isMember_of_plain (lit "action") rfl (.str h))
      (.cons (isMember_of_plain (lit "id") rfl (isText_printInt id)) .nil)))
  have hopen : lit "\x7b\"success\":true,\"action\":\"" =
      code '{' :: chr '"' :: lit "success" ++ [chr '"', chr ':', code 't', code 'r', code 'u',
        code 'e', code ',', chr '"'] ++ lit "action" ++ [chr '"', chr ':', code '"'] :=
    rfl
  have hid : lit "\",\"id\":" =
      code '"' :: code ',' :: chr '"' :: lit "id" ++ [chr '"', chr ':'] := rfl
  have hclose : lit "\x7d" = [code '}'] := by decide
  refine ⟨[(lit "success", .bool true), (lit "action", .str s), (lit "id", .num (print id))], ?_⟩
  rw [hopen, hid, hclose]
  simpa [commas] using hobj

/-- The answer that a folder was made. -/
theorem isObject_path (h : IsBody s text) :
    ∃ members, IsText (.obj members)
      (lit "\x7b\"success\":true,\"path\":\"" ++ text ++ lit "\"\x7d") := by
  have hobj := IsText.obj (.cons (isMember_of_plain (lit "success") rfl .true)
    (.cons (isMember_of_plain (lit "path") rfl (.str h)) .nil))
  have hopen : lit "\x7b\"success\":true,\"path\":\"" =
      code '{' :: chr '"' :: lit "success" ++ [chr '"', chr ':', code 't', code 'r', code 'u',
        code 'e', code ',', chr '"'] ++ lit "path" ++ [chr '"', chr ':', code '"'] :=
    rfl
  have hclose : lit "\"\x7d" = [code '"', code '}'] := by decide
  refine ⟨[(lit "success", .bool true), (lit "path", .str s)], ?_⟩
  rw [hopen, hclose]
  simpa [commas] using hobj

/-! ## Replies with a message -/

theorem complete_failure (message : Bytes) (h : message.all fun b => decide (Plain b))
    (htext : text = lit "\x7b\"success\":false,\"error\":\"" ++ message ++ lit "\"\x7d") :
    (Reply.json status text).Complete := by
  rw [htext]
  exact Reply.complete_json (isObject_failure (isBody_lit h))

theorem complete_error (message : Bytes) (h : message.all fun b => decide (Plain b))
    (htext : text = lit "\x7b\"error\":\"" ++ message ++ lit "\"\x7d") :
    (Reply.json status text).Complete := by
  rw [htext]
  exact Reply.complete_json (isObject_error (isBody_lit h))

theorem complete_folderError {message : Bytes} (h : message.all fun b => decide (Plain b))
    (hlength : message.length < 200) : (folderError status message).Complete := by
  have hopen : (lit "\x7b\"error\":\"").length = 10 := by decide
  have hclose : (lit "\"\x7d").length = 2 := by decide
  refine Reply.complete_printed ?_ (isObject_error (isBody_lit h))
  rw [List.length_append, List.length_append]
  omega

/-- The reply to a start that failed. -/
theorem complete_startErrorReply (c : Console) (mt : Option ManagedTorrent) :
    (startErrorReply c mt).Complete := by
  have hopen : (lit "\x7b\"success\":false,\"error\":\"").length = 26 := by decide
  have hclose : (lit "\"\x7d").length = 2 := by decide
  rw [startErrorReply]
  generalize detailedMessage c (startErrorStatus mt) (startErrorMessage mt) = message
  obtain ⟨s, -, hbody⟩ := exists_isBody_jsonEscapeText message 512
  have hlength := length_jsonEscapeText_lt message (show 0 < 512 by decide)
  refine Reply.complete_printed ?_ (isObject_failure hbody)
  rw [List.length_append, List.length_append]
  omega

/-- The reply that a torrent was added. -/
theorem complete_addedReply {index escapedSize jsonSize : ℕ} (hindex : index < 10)
    (hpos : 0 < escapedSize) (hfit : escapedSize + 40 ≤ jsonSize) (fallback : Bytes) :
    (addedReply m index fallback escapedSize jsonSize).Complete := by
  have hopen : (lit "\x7b\"success\":true,\"id\":").length = 21 := by decide
  have hname : (lit ",\"name\":\"").length = 9 := by decide
  have hclose : (lit "\"\x7d").length = 2 := by decide
  rw [addedReply]
  generalize ((m.torrentMgrGet index).map ManagedTorrent.name).getD fallback = name
  obtain ⟨s, -, hbody⟩ := exists_isBody_jsonEscapeText name escapedSize
  have hlength := length_jsonEscapeText_lt name hpos
  have hdigits := length_print_le (k := 1) (by decide) (n := index) (by omega)
  refine Reply.complete_printed ?_ (isObject_added index hbody)
  rw [List.length_append, List.length_append, List.length_append, List.length_append, printInt,
    if_neg (by omega), Int.natAbs_natCast]
  omega

theorem plain_name (a : Action) : a.name.all fun b => decide (Plain b) := by
  cases a with
  | start => decide
  | stop => decide
  | remove => decide

/-- The reply that a call was made. -/
theorem complete_actionReply (a : Action) {id : ℕ} (hid : id < 2 ^ 31) :
    (actionReply a.name id).Complete := by
  have hopen : (lit "\x7b\"success\":true,\"action\":\"").length = 26 := by decide
  have hmid : (lit "\",\"id\":").length = 7 := by decide
  have hclose : (lit "\x7d").length = 1 := by decide
  have hname := a.length_name_le
  have hdigits := length_print_le (k := 10) (by decide) (n := id) (by omega)
  refine Reply.complete_printed ?_ (isObject_action id (isBody_lit (plain_name a)))
  rw [List.length_append, List.length_append, List.length_append, List.length_append, printInt,
    if_neg (by omega), Int.natAbs_natCast]
  omega

/-! ## Handlers -/

/-- A request takes no exit with a counted length: a torrent is added with a
    destination that is refused, or with a link, or metainfo, that is accepted
    while there is room; a call is asked for with an id that is not negative. -/
def Handler.Uncounted (_ : Console) (req : HttpRequest) (m : TorrentMgr) : Handler → Prop
  | add => ∃ body, req.posted = some body ∧ param body (lit "magnet") 2048 ≠ [] ∧
      ((buildSavePath (destination (param body (lit "path") 512)) 512).isSome →
        (magnetHash (param body (lit "magnet") 2048)).isSome ∧ m.torrents.length < MAX_TORRENTS)
  | upload => ∃ body, req.posted = some body ∧ body ≠ [] ∧
      ∀ data, (httpGetUpload body (lit "torrent") [] 256).1 = some data →
        (buildSavePath (destination
          (cstr ((httpGetMultipartField body (lit "path") 512).getD []))) 512).isSome →
          (torrentParse data).isSome ∧ m.torrents.length < MAX_TORRENTS
  | action => req.method = .post ∧ ∃ digits name, (∀ b ∈ digits, Decimal.isDigit b) ∧
      (cstr req.path).drop 14 = digits ++ chr '/' :: name ∧ 0 ≤ wrappedId digits
  | localFile => True
  | mkdir => True

theorem complete_startAdded {index escapedSize jsonSize : ℕ} (hindex : index < 10)
    (hpos : 0 < escapedSize) (hfit : escapedSize + 40 ≤ jsonSize) (fallback : Bytes) :
    (startAdded c m index fallback escapedSize jsonSize).1.Complete := by
  rw [startAdded]
  generalize m.torrentMgrStart index = r
  obtain ⟨started, m'⟩ := r
  cases started with
  | false => exact complete_startErrorReply c _
  | true => exact complete_addedReply hindex hpos hfit fallback

theorem httpGetUpload_ne_nil {body fieldName filename data : Bytes} {filenameLen : ℕ}
    (hdata : (httpGetUpload body fieldName filename filenameLen).1 = some data) : data ≠ [] := by
  rw [httpGetUpload] at hdata
  split at hdata
  · cases hdata
  · dsimp only at hdata
    split at hdata
    · cases hdata
    · split at hdata
      case isTrue hlen =>
        obtain rfl := Option.some.inj hdata
        intro hnil
        rcases List.take_eq_nil_iff.1 hnil with hzero | hempty
        · exact absurd hlen hzero.not_gt
        · rw [hempty] at hlen
          exact absurd hlen (by decide)
      case isFalse => cases hdata

/-- The end of a request that adds a torrent: it is refused, or the reply is right. -/
theorem TorrentMgr.Added.complete_iff {accepted : Prop} {r : Option ℕ × TorrentMgr} {reply : Reply}
    {fallback : Bytes} {escapedSize jsonSize : ℕ} (h : m.Added accepted r) (hpos : 0 < escapedSize)
    (hfit : escapedSize + 40 ≤ jsonSize) :
    (finishAdding c reply fallback escapedSize jsonSize r).1.Complete ↔
      accepted ∧ m.torrents.length < MAX_TORRENTS ∨ reply.Complete := by
  by_cases hadded : accepted ∧ m.torrents.length < MAX_TORRENTS
  · obtain ⟨hindex, -⟩ := h.added hadded.1 hadded.2
    obtain ⟨index, m'⟩ := r
    obtain rfl : index = some m.torrents.length := hindex
    have hlt := hadded.2
    rw [MAX_TORRENTS] at hlt
    exact iff_of_true (complete_startAdded (by omega) hpos hfit fallback) (.inl hadded)
  · obtain rfl := h.rejected hadded
    exact (or_iff_right hadded).symm

theorem complete_handleApiAdd_iff (c : Console) (req : HttpRequest) (m : TorrentMgr) :
    (handleApiAdd c req m).1.Complete ↔ Handler.add.Uncounted c req m := by
  rw [handleApiAdd, Handler.Uncounted]
  cases req.posted with
  | none => exact iff_of_false (Reply.not_complete_counted (by decide)) (by simp)
  | some body =>
    simp only [Option.some.injEq, exists_eq_left']
    split
    case isTrue hmagnet =>
      exact iff_of_false (Reply.not_complete_counted (by decide)) fun h => h.1 hmagnet
    case isFalse hmagnet =>
      cases buildSavePath (destination (param body (lit "path") 512)) 512 with
      | none =>
        exact iff_of_true (complete_failure (lit "Caminho inválido") rfl
          rfl) ⟨hmagnet, by simp⟩
      | some savePath =>
        refine ((added_torrentMgrAddMagnet _ _ _ _).complete_iff (by decide) (by decide)).trans ?_
        rw [or_iff_left (Reply.not_complete_counted (Nat.ne_of_beq_eq_false rfl))]
        simp [hmagnet]

theorem complete_handleApiUpload_iff (c : Console) (req : HttpRequest) (m : TorrentMgr) :
    (handleApiUpload c req m).1.Complete ↔ Handler.upload.Uncounted c req m := by
  rw [handleApiUpload, Handler.Uncounted]
  cases req.posted with
  | none => exact iff_of_false (Reply.not_complete_counted (by decide)) (by simp)
  | some body =>
    simp only [Option.some.injEq, exists_eq_left']
    split
    case isTrue hbody =>
      exact iff_of_false (Reply.not_complete_counted (by decide)) fun h => h.1 hbody
    case isFalse hbody =>
      cases hdata : (httpGetUpload body (lit "torrent") [] 256).1 with
      | none =>
        exact iff_of_true (complete_failure (lit "Use multipart upload instead")
          rfl rfl) ⟨hbody, by simp⟩
      | some fileData =>
        have hne : fileData ≠ [] := httpGetUpload_ne_nil hdata
        dsimp only
        rw [if_neg hne]
        cases buildSavePath (destination
            (cstr ((httpGetMultipartField body (lit "path") 512).getD []))) 512 with
        | none =>
          exact iff_of_true (complete_failure (lit "Caminho inválido")
            rfl rfl) ⟨hbody, by simp⟩
        | some savePath =>
          refine ((added_torrentMgrAddRaw _ _ _).complete_iff (by decide) (by decide)).trans ?_
          rw [or_iff_left (Reply.not_complete_counted (Nat.ne_of_beq_eq_false rfl))]
          simp [hbody]

theorem complete_handleApiLocal (c : Console) (req : HttpRequest) (m : TorrentMgr) :
    (handleApiLocal c req m).1.Complete := by
  rw [handleApiLocal]
  cases req.posted with
  | none => exact Reply.complete_json isObject_empty
  | some body =>
    have hrefused : (Reply.json 400
        (lit "\x7b\"error\":\"Cannot read torrent or destination (maximum 1 MB)\"\x7d")).Complete :=
      complete_error (lit "Cannot read torrent or destination (maximum 1 MB)")
        rfl rfl
    dsimp only
    cases consoleTorrentRead c.toConsoleDisk (param body (lit "source") 1024) with
    | none => exact hrefused
    | some data =>
      cases buildSavePath (destination (param body (lit "path") 512)) 512 with
      | none => exact hrefused
      | some savePath =>
        exact ((added_torrentMgrAddRaw _ _ _).complete_iff (by decide) (by decide)).2
          (.inr (complete_error (lit "Invalid torrent or torrent limit reached")
            rfl rfl))

theorem handleApiAction_invalid (hpost : req.method = .post)
    (hread : ¬∃ digits name, (∀ b ∈ digits, Decimal.isDigit b) ∧
      (cstr req.path).drop 14 = digits ++ chr '/' :: name ∧ 0 ≤ wrappedId digits) :
    handleApiAction c req m = (.counted 400
      (lit "\x7b\"success\":false,\"error\":\"Invalid path\"\x7d") 43, m) := by
  obtain ⟨digits, rest, hdrop, hdigits, -, hid⟩ := exists_readId (-1) ((cstr req.path).drop 14)
  rw [handleApiAction, if_neg (not_not.2 hpost), hid]
  refine if_pos ?_
  by_contra hvalid
  rw [not_or, not_not] at hvalid
  obtain ⟨name, hname⟩ := List.head?_eq_some_iff.1 hvalid.2
  exact hread ⟨digits, name, hdigits, by rw [hdrop, hname], not_lt.1 hvalid.1⟩

theorem complete_respond (c : Console) (m : TorrentMgr) (a : Action) {id : ℤ} (hpos : 0 ≤ id)
    (hid : id < 2 ^ 31) : (respond c m id a).1.Complete := by
  obtain ⟨n, rfl⟩ := Int.eq_ofNat_of_zero_le hpos
  rw [respond]
  generalize m.act n a = r
  obtain ⟨ok, m'⟩ := r
  cases ok with
  | true => exact complete_actionReply a (by omega)
  | false =>
    dsimp only
    split
    · exact complete_startErrorReply c _
    · exact complete_failure (lit "Ação inválida") rfl rfl

theorem complete_handleApiAction_iff (c : Console) (req : HttpRequest) (m : TorrentMgr) :
    (handleApiAction c req m).1.Complete ↔ Handler.action.Uncounted c req m := by
  rw [Handler.Uncounted]
  by_cases hpost : req.method = .post
  · by_cases hread : ∃ digits name, (∀ b ∈ digits, Decimal.isDigit b) ∧
        (cstr req.path).drop 14 = digits ++ chr '/' :: name ∧ 0 ≤ wrappedId digits
    · refine iff_of_true ?_ ⟨hpost, hread⟩
      obtain ⟨digits, name, hdigits, hdrop, hid⟩ := hread
      rw [handleApiAction, if_neg (not_not.2 hpost), hdrop,
        readId_append hdigits (not_isDigit_head name)]
      dsimp only
      rw [if_neg (by rw [List.head?_cons]; exact not_or.2 ⟨not_lt.2 hid, by simp⟩)]
      cases hof : Action.ofName (strncpy 16 (chr '/' :: name).tail) with
      | none =>
        exact complete_failure (lit "Ação inválida") rfl
          rfl
      | some a =>
        have hrespond := complete_respond c m a hid (wrappedId_lt digits)
        rw [respond, ← Action.ofName_eq_some hof] at hrespond
        exact hrespond
    · rw [handleApiAction_invalid hpost hread]
      exact iff_of_false (Reply.not_complete_counted (by decide)) fun h => hread h.2
  · rw [handleApiAction, if_pos hpost]
    exact iff_of_false (Reply.not_complete_counted (by decide)) fun h => hpost h.1

/-! ## Folders -/

theorem complete_consoleFilesMkdir (disk : ConsoleDisk) (req : HttpRequest) :
    (consoleFilesMkdir disk req).Complete := by
  have hname : (folderError 400 (lit "Nome de pasta inválido.")).Complete :=
    complete_folderError rfl (Nat.le_of_ble_eq_true rfl)
  have hopen : (folderError 403 (lit "Não foi possível abrir esta pasta.")).Complete :=
    complete_folderError rfl (Nat.le_of_ble_eq_true rfl)
  rw [consoleFilesMkdir]
  cases req.posted with
  | none => exact complete_folderError rfl (Nat.le_of_ble_eq_true rfl)
  | some body =>
    dsimp only
    generalize (httpGetParam body (lit "path") 2048).getD [] = parent
    generalize (httpGetParam body (lit "name") 2048).getD [] = name
    split
    · exact hname
    · split
      · exact hname
      · split
        · exact hopen
        case h_2 resolved _ =>
          generalize resolved ++ (if resolved = lit "/" then [] else lit "/") ++ name = child
          split
          · exact complete_folderError rfl (Nat.le_of_ble_eq_true rfl)
          case isFalse hchild =>
            split
            · exact hopen
            · cases disk.mkdirat resolved name with
              | some errno =>
                dsimp only
                split
                · exact complete_folderError rfl (Nat.le_of_ble_eq_true rfl)
                · exact complete_folderError rfl (Nat.le_of_ble_eq_true rfl)
              | none =>
                have hprefix : (lit "\x7b\"success\":true,\"path\":\"").length = 24 := by decide
                have hclose : (lit "\"\x7d").length = 2 := by decide
                have hescape := length_flatMap_le (cstr child)
                have hcstr := length_cstr_le child
                refine Reply.complete_printed ?_ (isObject_path (isBody_flatMap (cstr child)))
                rw [List.length_append, List.length_append, escape]
                omega

/-! ## All handlers -/

/-- The reply to a request is right exactly if no exit with a counted length is taken. -/
theorem complete_handle_iff (handler : Handler) (c : Console) (req : HttpRequest) (m : TorrentMgr) :
    (handler.handle c req m).1.Complete ↔ handler.Uncounted c req m := by
  cases handler with
  | add => exact complete_handleApiAdd_iff c req m
  | upload => exact complete_handleApiUpload_iff c req m
  | localFile => exact iff_of_true (complete_handleApiLocal c req m) trivial
  | action => exact complete_handleApiAction_iff c req m
  | mkdir => exact iff_of_true (complete_consoleFilesMkdir c.toConsoleDisk req) trivial

/-- The answer to an empty link is sent with the two bytes after it. -/
theorem not_complete_emptyLink :
    ¬(Handler.add.handle plainConsole (postRequest (lit "/api/torrents/add") []) emptyMgr).1.Complete :=
  @Reply.not_complete_counted (lit "\x7b\"success\":false,\"error\":\"Magnet link required\"\x7d") 400 50
    (by decide)

end PS5Torrent
