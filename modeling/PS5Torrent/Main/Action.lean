import PS5Torrent.Main.Rollback

/-!
# Requests to start, stop or remove a torrent

The id in the path is read into an `int`, so a long numeral stands for another
id (`wrappedId`, and `Reading` for what a compiler makes of the overflow); a stop
and a removal say nothing about whether the torrent exists. `actsAsNamed_iff`
says when a request does what its path names.
-/

namespace PS5Torrent

open TorrentMgr Decimal

variable {c : Console} {req : HttpRequest} {m m' : TorrentMgr} {mt : ManagedTorrent}
  {digits name path rest s : Bytes} {a : Action} {id : ℤ} {n : ℕ}

/-! ## Ids -/

/-- The `int` that a numeral is read as. -/
def wrappedId (digits : Bytes) : ℤ := digits.foldl nextId (-1)

/-- A nonempty string of digits. -/
structure IsNumeral (digits : Bytes) : Prop where
  ne_nil : digits ≠ []
  isDigit : ∀ b ∈ digits, isDigit b

theorem toInt32_mem (x : ℤ) : -2 ^ 31 ≤ toInt32 x ∧ toInt32 x < 2 ^ 31 := by
  have hl := Int.le_bmod (x := x) (m := 2 ^ 32) (by norm_num)
  have hu := Int.bmod_lt (x := x) (m := 2 ^ 32) (by norm_num)
  rw [toInt32]
  norm_num at hl hu ⊢
  omega

theorem wrappedId_append_singleton (digits : Bytes) (b : UInt8) :
    wrappedId (digits ++ [b]) = nextId (wrappedId digits) b := by
  rw [wrappedId, List.foldl_append, List.foldl_cons, List.foldl_nil, wrappedId]

theorem wrappedId_lt (digits : Bytes) : wrappedId digits < 2 ^ 31 := by
  rcases List.eq_nil_or_concat digits with rfl | ⟨ds, b, rfl⟩
  · decide
  · rw [List.concat_eq_append, wrappedId_append_singleton]
    exact (toInt32_mem _).2

/-- A numeral below `2 ^ 31` is read as the number it denotes. -/
theorem wrappedId_of_lt (h : IsNumeral digits) (hlt : value digits < 2 ^ 31) :
    wrappedId digits = value digits := by
  induction digits using List.reverseRecOn with
  | nil => exact absurd rfl h.ne_nil
  | append_singleton ds b ih =>
    have hb := digitVal_lt (h.isDigit b List.mem_concat_self)
    rw [value_append_singleton] at hlt ⊢
    have hprev : (if wrappedId ds < 0 then 0 else wrappedId ds) = value ds := by
      rcases eq_or_ne ds [] with rfl | hne
      · rfl
      · rw [ih ⟨hne, fun b hb => h.isDigit b (List.mem_append_left _ hb)⟩ (by omega),
          if_neg (by omega)]
    have hten : toInt32 ((value ds : ℤ) * 10) = value ds * 10 :=
      toInt32_of_mem (by omega) (by omega)
    rw [wrappedId_append_singleton, nextId, hprev, hten, toInt32_of_mem (by omega) (by omega)]
    omega

theorem wrappedId_print (hn : n < 2 ^ 31) : wrappedId (print n) = n := by
  rw [wrappedId_of_lt ⟨print_ne_nil n, fun b => isDigit_of_mem_print⟩ (by rwa [value_print]),
    value_print]

theorem exists_readId (id : ℤ) (s : Bytes) :
    ∃ digits rest, s = digits ++ rest ∧ (∀ b ∈ digits, isDigit b) ∧
      (∀ b ∈ rest.head?, ¬isDigit b) ∧ readId id s = (digits.foldl nextId id, rest) := by
  induction s generalizing id with
  | nil => exact ⟨[], [], rfl, List.forall_mem_nil _, by simp, rfl⟩
  | cons b s ih =>
    rw [readId]
    split
    case isTrue hb =>
      obtain ⟨digits, rest, rfl, hdigits, hrest, hread⟩ := ih (nextId id b)
      exact ⟨b :: digits, rest, rfl, List.forall_mem_cons.2 ⟨hb, hdigits⟩, hrest, hread⟩
    case isFalse hb =>
      refine ⟨[], b :: s, rfl, List.forall_mem_nil _, fun b' hb' => ?_, rfl⟩
      obtain rfl := Option.some.inj hb'
      exact hb

theorem readId_append (hdigits : ∀ b ∈ digits, isDigit b) (hrest : ∀ b ∈ rest.head?, ¬isDigit b)
    (id : ℤ) : readId id (digits ++ rest) = (digits.foldl nextId id, rest) := by
  induction digits generalizing id with
  | nil =>
    cases rest with
    | nil => rfl
    | cons b rest => exact if_neg (hrest b rfl)
  | cons b digits ih =>
    rw [List.forall_mem_cons] at hdigits
    rw [List.cons_append, readId, if_pos hdigits.1, ih hdigits.2, List.foldl_cons]

/-- The digits of an id end at a slash. -/
theorem not_isDigit_head (name : Bytes) : ∀ b ∈ (chr '/' :: name).head?, ¬isDigit b := by
  intro b hb
  obtain rfl := Option.some.inj hb
  decide

/-! ## Paths -/

/-- The path with an id and the name of a call. -/
def actionPath (digits name : Bytes) : Bytes :=
  lit "/api/torrents/" ++ (digits ++ chr '/' :: name)

/-- A path names a call for the torrent with an index. -/
def Names (path : Bytes) (n : ℕ) (a : Action) : Prop :=
  ∃ digits, IsNumeral digits ∧ path = actionPath digits a.name ∧ value digits = n

theorem length_prefix : (lit "/api/torrents/").length = 14 := by decide

theorem drop_actionPath (digits name : Bytes) :
    (actionPath digits name).drop 14 = digits ++ chr '/' :: name := by
  rw [actionPath, ← length_prefix, List.drop_left]

/-- A path is read in one way. -/
theorem readId_actionPath (name : Bytes) (hdigits : IsNumeral digits) :
    readId (-1) ((actionPath digits name).drop 14) = (wrappedId digits, chr '/' :: name) := by
  rw [drop_actionPath]
  exact readId_append hdigits.isDigit (not_isDigit_head name) (-1)

theorem actionPath_inj {digits' name' : Bytes} (hdigits : IsNumeral digits)
    (hdigits' : IsNumeral digits') (h : actionPath digits name = actionPath digits' name') :
    digits = digits' ∧ name = name' := by
  have hread := readId_actionPath name hdigits
  have hdrop : digits ++ chr '/' :: name = digits' ++ chr '/' :: name' := by
    rw [← drop_actionPath, ← drop_actionPath, h]
  rw [h, readId_actionPath name' hdigits', Prod.mk.injEq, List.cons.injEq] at hread
  rw [hread.2.2] at hdrop
  exact ⟨List.append_cancel_right hdrop, hread.2.2.symm⟩

theorem Action.ofName_name (a : Action) : Action.ofName a.name = some a := by
  cases a with
  | start => rfl
  | stop => rfl
  | remove => rfl

theorem Action.name_injective : Function.Injective Action.name := fun a b h =>
  Option.some.inj (by rw [← Action.ofName_name a, h, Action.ofName_name])

theorem Action.ofName_eq_some (h : Action.ofName name = some a) : name = a.name := by
  rw [Action.ofName] at h
  split at h
  · obtain rfl := Option.some.inj h
    assumption
  · split at h
    · obtain rfl := Option.some.inj h
      assumption
    · split at h
      · obtain rfl := Option.some.inj h
        assumption
      · cases h

theorem Action.length_name_le (a : Action) : a.name.length ≤ 6 := by
  cases a with
  | start => decide
  | stop => decide
  | remove => decide

theorem Action.not_mem_name (a : Action) : 0 ∉ a.name := by
  cases a with
  | start => decide
  | stop => decide
  | remove => decide

/-- The buffer for the name of a call is longer than each name. -/
theorem strncpy_name (a : Action) : strncpy 16 a.name = a.name := by
  rw [strncpy, cstr_of_not_mem a.not_mem_name]
  exact List.take_of_length_le (a.length_name_le.trans (by decide))

theorem eq_of_strncpy_name (hname : 0 ∉ name) (h : strncpy 16 name = a.name) : name = a.name := by
  rw [strncpy, cstr_of_not_mem hname] at h
  have hlength := congrArg List.length h
  have hle := a.length_name_le
  rw [List.length_take] at hlength
  rwa [List.take_of_length_le (by omega)] at h

/-- The handler is called with paths that begin with its prefix. -/
theorem prefix_of_findHandler (h : findHandler path = some .action) :
    lit "/api/torrents/" <+: cstr path := by
  obtain ⟨entry, hfind, hentry⟩ := Option.bind_eq_some_iff.1 h
  have htable : ∀ entry ∈ handlers, entry.2 = some .action → entry.1 = lit "/api/torrents/" := by
    decide
  have hprefix := List.find?_some hfind
  rw [htable entry (List.mem_of_find?_eq_some hfind) hentry] at hprefix
  exact List.isPrefixOf_iff_prefix.1 hprefix

/-! ## The handler -/

/-- The end of the handler, for a call with an id. -/
def respond (c : Console) (m : TorrentMgr) (id : ℤ) (a : Action) : Reply × TorrentMgr :=
  match m.act id a with
  | (true, m) => (actionReply a.name id, m)
  | (false, m) =>
    if (m.torrentMgrGet id).isSome then torrentStartErrorResponse c m id false
    else (invalidAction, m)

theorem handleApiAction_of_path (hpost : req.method = .post) (hdigits : IsNumeral digits)
    (hpath : cstr req.path = actionPath digits a.name) (hid : 0 ≤ wrappedId digits) :
    handleApiAction c req m = respond c m (wrappedId digits) a := by
  rw [handleApiAction, if_neg (not_not.2 hpost), hpath, readId_actionPath _ hdigits]
  dsimp only
  rw [if_neg (by rw [List.head?_cons]; simp [hid]), List.tail_cons, strncpy_name,
    Action.ofName_name]
  rfl

/-- What a numeral is read as. The numerals below `2 ^ 31` are read as what they
    denote; from `2 ^ 31` on the `int` overflows, and the id and whether the test
    for a negative id refuses it are left to the compiler. -/
structure Reading where
  id : Bytes → ℤ
  refuses : Bytes → Bool
  id_of_lt : ∀ digits, IsNumeral digits → value digits < 2 ^ 31 → id digits = value digits
  refuses_of_lt : ∀ digits, IsNumeral digits → value digits < 2 ^ 31 → refuses digits = false

/-- The overflow wraps around. -/
def Reading.wrapping : Reading where
  id := wrappedId
  refuses digits := wrappedId digits < 0
  id_of_lt _ h hlt := wrappedId_of_lt h hlt
  refuses_of_lt digits h hlt := by
    rw [wrappedId_of_lt h hlt, decide_eq_false_iff_not]
    exact not_lt.2 (Int.natCast_nonneg _)

/-- The overflow wraps around, and the test for a negative id is dropped. -/
def Reading.unchecked : Reading where
  id := wrappedId
  refuses _ := false
  id_of_lt _ h hlt := wrappedId_of_lt h hlt
  refuses_of_lt _ _ _ := rfl

/-- `handle_api_action` with a reading of the numerals. -/
def handleApiActionWith (r : Reading) (c : Console) (req : HttpRequest) (m : TorrentMgr) :
    Reply × TorrentMgr :=
  if req.method ≠ .post then
    (.counted 400 (lit "\x7b\"success\":false,\"error\":\"POST required\"\x7d") 43, m)
  else
    let digits := ((cstr req.path).drop 14).takeWhile isDigit
    let p := ((cstr req.path).drop 14).dropWhile isDigit
    if digits = [] ∨ r.refuses digits ∨ p.head? ≠ some (chr '/') then
      (.counted 400 (lit "\x7b\"success\":false,\"error\":\"Invalid path\"\x7d") 43, m)
    else
      match Action.ofName (strncpy 16 p.tail) with
      | none => (invalidAction, m)
      | some a => respond c m (r.id digits) a

theorem takeWhile_dropWhile_isDigit (hdigits : ∀ b ∈ digits, isDigit b)
    (hrest : ∀ b ∈ rest.head?, ¬isDigit b) :
    (digits ++ rest).takeWhile isDigit = digits ∧ (digits ++ rest).dropWhile isDigit = rest := by
  have hnone : rest.takeWhile isDigit = [] ∧ rest.dropWhile isDigit = rest := by
    cases rest with
    | nil => exact ⟨rfl, rfl⟩
    | cons b rest =>
      have hb : ¬isDigit b := hrest b rfl
      exact ⟨List.takeWhile_cons_of_neg hb, List.dropWhile_cons_of_neg hb⟩
  rw [List.takeWhile_append_of_pos hdigits, List.dropWhile_append_of_pos hdigits, hnone.1, hnone.2,
    List.append_nil]
  exact ⟨rfl, rfl⟩

theorem handleApiActionWith_wrapping (c : Console) (req : HttpRequest) (m : TorrentMgr) :
    handleApiActionWith .wrapping c req m = handleApiAction c req m := by
  obtain ⟨digits, rest, hdrop, hdigits, hrest, hread⟩ := exists_readId (-1) ((cstr req.path).drop 14)
  obtain ⟨htake, hskip⟩ := takeWhile_dropWhile_isDigit hdigits hrest
  rw [← wrappedId] at hread
  rw [handleApiActionWith, handleApiAction, hread]
  split
  · rfl
  dsimp only
  rw [hdrop, htake, hskip]
  have hrefused : (digits = [] ∨ Reading.wrapping.refuses digits = true ∨
      rest.head? ≠ some (chr '/')) ↔ (wrappedId digits < 0 ∨ rest.head? ≠ some (chr '/')) := by
    have hempty : digits = [] → wrappedId digits < 0 := by
      rintro rfl
      decide
    rw [Reading.wrapping, decide_eq_true_eq, ← or_assoc, or_iff_right_of_imp hempty]
  rw [if_congr hrefused rfl rfl]
  split
  · rfl
  cases hof : Action.ofName (strncpy 16 rest.tail) with
  | none => rfl
  | some a =>
    rw [Action.ofName_eq_some hof]
    rfl

variable {r : Reading}

theorem handleApiActionWith_of_refused (hpost : req.method = .post) (hdigits : IsNumeral digits)
    (hpath : cstr req.path = actionPath digits name) (hrefuses : r.refuses digits) :
    (handleApiActionWith r c req m).1.statusCode ≠ 200 ∧ (handleApiActionWith r c req m).2 = m := by
  obtain ⟨htake, -⟩ := takeWhile_dropWhile_isDigit hdigits.isDigit (not_isDigit_head name)
  rw [handleApiActionWith, if_neg (not_not.2 hpost), hpath, drop_actionPath, htake]
  dsimp only
  rw [if_pos (.inr (.inl hrefuses))]
  exact ⟨(by decide : 400 ≠ 200), rfl⟩

theorem handleApiActionWith_of_path (hpost : req.method = .post) (hdigits : IsNumeral digits)
    (hpath : cstr req.path = actionPath digits a.name) (hrefuses : ¬r.refuses digits) :
    handleApiActionWith r c req m = respond c m (r.id digits) a := by
  obtain ⟨htake, hskip⟩ := takeWhile_dropWhile_isDigit hdigits.isDigit (not_isDigit_head a.name)
  rw [handleApiActionWith, if_neg (not_not.2 hpost), hpath, drop_actionPath, htake, hskip]
  dsimp only
  rw [if_neg (by rw [List.head?_cons]; simp [hdigits.ne_nil, hrefuses]), List.tail_cons,
    strncpy_name, Action.ofName_name]

/-- A path that names no call is refused. -/
theorem handleApiActionWith_of_not_names (hpost : req.method = .post)
    (hstart : lit "/api/torrents/" <+: cstr req.path)
    (hnames : ∀ digits a, IsNumeral digits → cstr req.path ≠ actionPath digits (Action.name a)) :
    (handleApiActionWith r c req m).1.statusCode ≠ 200 ∧ (handleApiActionWith r c req m).2 = m := by
  obtain ⟨s, hs⟩ := hstart
  obtain ⟨digits, rest, rfl, hdigits, hrest, -⟩ := exists_readId (-1) s
  obtain ⟨htake, hskip⟩ := takeWhile_dropWhile_isDigit hdigits hrest
  rw [handleApiActionWith, if_neg (not_not.2 hpost)]
  have hdrop : (cstr req.path).drop 14 = digits ++ rest := by
    rw [← hs, ← length_prefix, List.drop_left]
  rw [hdrop, htake, hskip]
  dsimp only
  split
  · exact ⟨(by decide : 400 ≠ 200), rfl⟩
  case isFalse hvalid =>
    rw [not_or, not_or, not_not] at hvalid
    obtain ⟨hne, -, hslash⟩ := hvalid
    obtain ⟨name, rfl⟩ : ∃ name, rest = chr '/' :: name := by
      cases rest with
      | nil => cases hslash
      | cons b rest => exact ⟨rest, by rw [Option.some.inj hslash]⟩
    have hname : 0 ∉ name := by
      intro hmem
      refine not_mem_cstr req.path ?_
      rw [← hs]
      simp [hmem]
    cases hof : Action.ofName (strncpy 16 (chr '/' :: name).tail) with
    | none => exact ⟨(by decide : 400 ≠ 200), rfl⟩
    | some a =>
      have heq := eq_of_strncpy_name hname (Action.ofName_eq_some hof)
      exact absurd (by rw [← hs, heq, actionPath]) (hnames digits a ⟨hne, hdigits⟩)

theorem statusCode_startErrorReply_ne {mt : Option ManagedTorrent} :
    (startErrorReply c mt).statusCode ≠ 200 := by
  have hstatus : startErrorStatus mt ≠ 200 := by
    rw [startErrorStatus]
    split
    · decide
    · decide
  exact hstatus

/-! ## Calls -/

/-- A call with the index of no torrent changes nothing. -/
theorem act_of_invalid (hid : id < 0 ∨ id ≥ m.torrents.length) (a : Action) :
    (m.act id a).2 = m ∧ (a = .start → (m.act id a).1 = false) := by
  cases a with
  | start =>
    rw [act, torrentMgrStart, if_pos hid]
    exact ⟨rfl, fun _ => rfl⟩
  | stop =>
    rw [act, torrentMgrStop, if_pos hid]
    exact ⟨rfl, fun h => absurd h (by decide)⟩
  | remove =>
    rw [act, torrentMgrRemove, if_pos hid]
    exact ⟨rfl, fun h => absurd h (by decide)⟩

/-- The record holds the error that a start now gives: the directory cannot be
    made, there is only a magnet link, or there is no memory for the pieces. -/
def Work.HoldsRefusal (w : Work) : Prop :=
  match ensureDirectoryTree w.mt.savePath w.sys with
  | .error _ sys =>
    w.mt.errorType = .writeFailed ∧
      w.mt.errorMsg = snprintf 256 (directoryError { w with sys := sys })
  | .ok _ _ =>
    w.mt.errorType = .parseFailed ∧
      if w.mt.isMagnet && w.mt.torrent.numPieces = 0 then
        w.mt.errorMsg = snprintf 256 (lit "Magnet links require metadata download (BEP-9) - " ++
          lit "use a .torrent file instead")
      else
        (w.outcome.succeeds && w.next.outcome.succeeds) = false ∧
          w.mt.errorMsg = snprintf 256 (lit "Not enough memory for torrent pieces") ∧
          w.mt.pieceMgr = pieceMgrInit false false w.mt.torrent

/-- The torrent is as a start that set nothing up has left it, and the reason is
    still there. -/
structure Work.RefusedBefore (w : Work) : Prop where
  unset : ¬w.mt.Initialized
  state : w.mt.state = .error
  downloaded : w.mt.downloaded = 0
  writes : w.mt.writes = []
  refusal : w.HoldsRefusal

/-- The record after a start that sets nothing up is the one before it. -/
theorem refused_eq_self_iff {errorType : TorrentError} {errorMsg : Bytes} {pm : PieceMgr} :
    { mt with
      downloaded := 0, errorType := errorType, errorMsg := errorMsg, writes := [], state := .error,
      pieceMgr := pm } = mt ↔
    mt.state = .error ∧ mt.downloaded = 0 ∧ mt.writes = [] ∧ mt.errorType = errorType ∧
      mt.errorMsg = errorMsg ∧ mt.pieceMgr = pm := by
  constructor
  · intro h
    rw [← h]
    exact ⟨rfl, rfl, rfl, rfl, rfl, rfl⟩
  · obtain ⟨⟩ := mt
    rintro ⟨hstate, hdownloaded, hwrites, herrorType, herrorMsg, hpm⟩
    dsimp only at hstate hdownloaded hwrites herrorType herrorMsg hpm
    subst hstate hdownloaded hwrites herrorType herrorMsg hpm
    rfl

/-- The end of a start: a magnet link, no memory for the pieces, and a torrent that gets them. -/
theorem openTorrent_spec (w : Work) :
    (w.mt.isMagnet && w.mt.torrent.numPieces = 0 → openTorrent w = (false, w.fail .parseFailed
      (lit "Magnet links require metadata download (BEP-9) - " ++
        lit "use a .torrent file instead"))) ∧
    (¬(w.mt.isMagnet && w.mt.torrent.numPieces = 0) →
      ((w.outcome.succeeds && w.next.outcome.succeeds) = false → openTorrent w = (false,
        { w.next.next with mt.pieceMgr := pieceMgrInit false false w.mt.torrent : Work }.fail
          .parseFailed (lit "Not enough memory for torrent pieces"))) ∧
      ((w.outcome.succeeds && w.next.outcome.succeeds) = true →
        (openTorrent w).2.mt.pieceMgr.pieces.isSome)) := by
  refine ⟨fun hmagnet => ?_, fun hmagnet => ⟨fun hmemory => ?_, fun hmemory => ?_⟩⟩
  · rw [openTorrent, if_pos hmagnet]
  · have hpm : pieceMgrInit w.outcome.succeeds w.next.outcome.succeeds w.mt.torrent =
        pieceMgrInit false false w.mt.torrent := by
      rw [pieceMgrInit, hmemory]
      rfl
    rw [openTorrent, if_neg hmagnet, hpm]
    rfl
  · rw [openTorrent, if_neg hmagnet, pieceMgrInit, hmemory, if_pos rfl, if_pos rfl]
    dsimp only
    rw [if_neg (by simp)]
    split
    · rfl
    · rfl

/-- A start fails and leaves the record as it was exactly if it failed so before. -/
theorem startTorrent_refused_iff {w : Work} (hlt : w.mt.generation < w.nextGeneration) :
    ((startTorrent w).1 = false ∧ (startTorrent w).2.mt = w.mt) ↔ w.RefusedBefore := by
  by_cases hactive : w.mt.state = .downloading ∨ w.mt.state = .seeding ∨ w.mt.state = .done
  · rw [startTorrent, if_pos hactive]
    refine iff_of_false (fun h => absurd h.1 Bool.true_eq_false_eq_False) fun h => ?_
    rw [h.state] at hactive
    simp at hactive
  by_cases hinit : w.mt.Initialized
  · -- what is left of an earlier start is dropped
    refine iff_of_false (fun h => ?_) fun h => h.unset hinit
    rcases startTorrent_cases w with ⟨-, hstopped, herror⟩ | ⟨-, hopened⟩
    · exact (stopped_or_error hactive).elim hstopped herror
    · have hgeneration : (startTorrent w).2.mt.generation = w.nextGeneration := by
        rw [hopened.torrent]
        exact ((resetTorrent_moves w).1 hinit).generation
      rw [h.2] at hgeneration
      omega
  have hreset : resetTorrent w =
      { w with mt.downloaded := 0, mt.errorType := .none, mt.errorMsg := [], mt.writes := [] } := by
    rw [resetTorrent, if_neg (by rwa [Bool.or_eq_true])]
  have hbefore : w.RefusedBefore ↔ w.mt.state = .error ∧ w.mt.downloaded = 0 ∧ w.mt.writes = [] ∧
      w.HoldsRefusal := by
    constructor
    · intro h
      exact ⟨h.state, h.downloaded, h.writes, h.refusal⟩
    · rintro ⟨hstate, hdownloaded, hwrites, hrefusal⟩
      exact ⟨hinit, hstate, hdownloaded, hwrites, hrefusal⟩
  -- nothing is dropped, so that the record can only differ in the error and in what is cleared
  rw [hbefore, Work.HoldsRefusal, startTorrent, if_neg hactive, hreset]
  dsimp only
  cases ensureDirectoryTree w.mt.savePath w.sys with
  | error e sys =>
    dsimp only [Work.fail]
    rw [refused_eq_self_iff]
    simp only [true_and, and_true]
    rfl
  | ok _ sys =>
    obtain ⟨hlink, hfile⟩ := openTorrent_spec { w with
      sys := sys, mt.downloaded := 0, mt.errorType := .none, mt.errorMsg := [], mt.writes := [] }
    dsimp only
    by_cases hmagnet : (w.mt.isMagnet && w.mt.torrent.numPieces = 0) = true
    · rw [if_pos hmagnet, hlink hmagnet]
      dsimp only [Work.fail]
      rw [refused_eq_self_iff]
      simp only [true_and, and_true]
    rw [if_neg hmagnet]
    obtain ⟨hnone, hpieces⟩ := hfile hmagnet
    cases hmemory : w.outcome.succeeds && w.next.outcome.succeeds with
    | false =>
      rw [hnone hmemory]
      dsimp only [Work.fail, Work.next]
      rw [refused_eq_self_iff]
      simp only [true_and]
    | true =>
      -- the pieces are set up, and the record before had none
      refine iff_of_false (fun h => hinit (.inl ?_)) fun h => absurd h.2.2.2.2.1 (by simp)
      rw [← h.2]
      exact hpieces hmemory

/-- The torrents other than the one with an index are as they were, where a removal moves them. -/
def TorrentMgr.OthersStay (m : TorrentMgr) (n : ℕ) (event : Event) (m' : TorrentMgr) : Prop :=
  ∀ i mt, i ≠ n → m.torrents[i]? = some mt → ∀ k ∈ m.position i event, m'.torrents[k]? = some mt

theorem othersStay_act (m : TorrentMgr) (n : ℕ) (a : Action) :
    m.OthersStay n (a.event n) (m.act n a).2 := by
  intro i mt hne hmt k hk
  cases a with
  | start =>
    obtain rfl := Option.some.inj hk
    rw [act, torrentMgrStart]
    split
    · exact hmt
    · rw [Int.toNat_natCast]
      cases m.torrents[n]? with
      | none => exact hmt
      | some mt' => exact (getElem?_onTorrent_of_ne hne.symm).trans hmt
  | stop =>
    obtain rfl := Option.some.inj hk
    rw [act, torrentMgrStop]
    split
    · exact hmt
    · rw [Int.toNat_natCast]
      exact (getElem?_onTorrent_of_ne hne.symm).trans hmt
  | remove => exact getElem?_torrentMgrRemove hmt hk

/-! ## What a request does -/

/-- What a request to act must do at a path: it is answered with success and an
    id only if the path names a call on the torrent with this id, and then the
    call is made on this torrent; otherwise it changes no torrent. -/
structure ActsAsNamed (path : Bytes) (m : TorrentMgr) (r : Reply × TorrentMgr) : Prop where
  success : r.1.statusCode = 200 → ∃ n a, Names path n a ∧ n < m.torrents.length ∧
    r.1.text = (actionReply a.name n).text ∧ r.2 = (m.act n a).2 ∧ m.OthersStay n (a.event n) r.2
  failure : (∀ n a, Names path n a → m.torrents.length ≤ n) →
    r.1.statusCode ≠ 200 ∧ r.2.torrents = m.torrents

/-- A numeral is not mistaken: it is below `2 ^ 31`, or it is refused, or the
    start it leads to is of no torrent, or of one that it refused before for the
    same reason. A stop or a removal needs the torrent. -/
def TorrentMgr.ReadsRight (m : TorrentMgr) (r : Reading) (digits : Bytes) : Action → Prop
  | .start => value digits < 2 ^ 31 ∨ r.refuses digits ∨
      ∀ mt, m.torrentMgrGet (r.id digits) = some mt → Work.RefusedBefore ⟨m.toWorld, mt⟩
  | _ => value digits < m.torrents.length ∨ r.refuses digits

theorem names_iff (hdigits : IsNumeral digits) (hpath : path = actionPath digits a.name)
    {a' : Action} : Names path n a' ↔ n = value digits ∧ a' = a := by
  constructor
  · rintro ⟨digits', hdigits', hpath', rfl⟩
    obtain ⟨rfl, hname⟩ := actionPath_inj hdigits hdigits' (hpath.symm.trans hpath')
    exact ⟨rfl, (Action.name_injective hname).symm⟩
  · rintro ⟨rfl, rfl⟩
    exact ⟨digits, hdigits, hpath, rfl⟩

theorem respond_spec (c : Console) (m : TorrentMgr) (id : ℤ) (a : Action) :
    (respond c m id a).2 = (m.act id a).2 ∧
      ((m.act id a).1 = true → (respond c m id a).1 = actionReply a.name id) ∧
      ((m.act id a).1 = false → (respond c m id a).1.statusCode ≠ 200) := by
  rw [respond]
  generalize m.act id a = r
  obtain ⟨ok, m'⟩ := r
  cases ok with
  | true => exact ⟨rfl, fun _ => rfl, by simp⟩
  | false =>
    refine ⟨?_, fun h => absurd h Bool.false_ne_true, fun _ => ?_⟩
    · dsimp only
      split
      · rfl
      · rfl
    · dsimp only
      split
      · rw [torrentStartErrorResponse]
        exact statusCode_startErrorReply_ne
      · exact (by decide : 400 ≠ 200)

theorem actsAsNamed_of_refused {r : Reply × TorrentMgr}
    (h : r.1.statusCode ≠ 200 ∧ r.2.torrents = m.torrents) : ActsAsNamed path m r where
  success hstatus := absurd hstatus h.1
  failure _ := h

theorem actsAsNamed_of_named (hdigits : IsNumeral digits)
    (hpath : path = actionPath digits a.name) (hlt : value digits < m.torrents.length)
    (hid : id = value digits) : ActsAsNamed path m (respond c m id a) := by
  obtain ⟨hm', htrue, hfalse⟩ := respond_spec c m id a
  refine ⟨fun hstatus => ?_, fun hnames => ?_⟩
  · refine ⟨value digits, a, (names_iff hdigits hpath).2 ⟨rfl, rfl⟩, hlt, ?_, ?_, ?_⟩
    · cases hok : (m.act id a).1 with
      | true => rw [htrue hok, hid]
      | false => exact absurd hstatus (hfalse hok)
    · rw [hm', hid]
    · rw [hm', hid]
      exact othersStay_act m _ a
  · exact absurd (hnames _ a ((names_iff hdigits hpath).2 ⟨rfl, rfl⟩)) (by omega)

/-- A start that is made for an index fails and leaves the torrents as they were exactly if there
    is no such torrent, or it was refused before. -/
theorem torrentMgrStart_refused_iff (hm : Reachable m) :
    ((m.torrentMgrStart id).1 = false ∧ (m.torrentMgrStart id).2.torrents = m.torrents) ↔
      ∀ mt, m.torrentMgrGet id = some mt → Work.RefusedBefore ⟨m.toWorld, mt⟩ := by
  rw [torrentMgrStart, torrentMgrGet]
  split
  · exact iff_of_true ⟨rfl, rfl⟩ fun mt h => absurd h (by simp)
  cases hmt : m.torrents[id.toNat]? with
  | none => exact iff_of_true ⟨rfl, rfl⟩ fun mt h => absurd h (by simp)
  | some mt =>
    have hlt := ((sound_of_reachable hm).torrents mt (List.mem_of_getElem? hmt)).below
    have hset (mt' : ManagedTorrent) : m.torrents.set id.toNat mt' = m.torrents ↔ mt' = mt := by
      obtain ⟨hbound, hget⟩ := List.getElem?_eq_some_iff.1 hmt
      constructor
      · intro h
        have hself := List.getElem?_set_self (a := mt') hbound
        rw [h, hmt] at hself
        exact (Option.some.inj hself).symm
      · rintro rfl
        rw [← hget, List.set_getElem_self]
    -- the other records stay, so that only the one at the index can change
    rw [onTorrent_eq hmt]
    dsimp only
    rw [hset, startTorrent_refused_iff hlt]
    exact ⟨fun h mt' hmt' => Option.some.inj hmt' ▸ h, fun h => h mt rfl⟩

/-- A request whose torrent does not exist is refused and changes nothing. -/
theorem actsAsNamed_respond_iff (hdigits : IsNumeral digits)
    (hpath : path = actionPath digits a.name) (hge : m.torrents.length ≤ value digits) :
    ActsAsNamed path m (respond c m id a) ↔
      (m.act id a).1 = false ∧ (m.act id a).2.torrents = m.torrents := by
  obtain ⟨hm', htrue, hfalse⟩ := respond_spec c m id a
  constructor
  · intro h
    obtain ⟨hstatus, htorrents⟩ := h.failure fun n a' hn => by
      rw [((names_iff hdigits hpath).1 hn).1]
      exact hge
    refine ⟨?_, hm' ▸ htorrents⟩
    cases hok : (m.act id a).1 with
    | true => exact absurd (by rw [htrue hok]; rfl) hstatus
    | false => rfl
  · rintro ⟨hok, htorrents⟩
    exact actsAsNamed_of_refused ⟨hfalse hok, hm' ▸ htorrents⟩

/-- However the numerals that an `int` does not hold are read, a request does what its path names
    exactly if it does not mistake the numeral, and the torrent that it stops or removes exists. -/
theorem actsAsNamed_iff (hpost : req.method = .post) (hfind : findHandler req.path = some .action)
    (hm : Reachable m) :
    handleApiActionWith .wrapping c req m = handleApiAction c req m ∧
    ∀ r, ActsAsNamed (cstr req.path) m (handleApiActionWith r c req m) ↔
      ∀ digits a, IsNumeral digits → cstr req.path = actionPath digits (Action.name a) →
        m.ReadsRight r digits a := by
  have hcount : m.torrents.length ≤ 8 := length_torrents_le hm
  refine ⟨handleApiActionWith_wrapping c req m, fun r => ?_⟩
  by_cases hnamed : ∃ digits a, IsNumeral digits ∧ cstr req.path = actionPath digits (Action.name a)
  · obtain ⟨digits, a, hdigits, hpath⟩ := hnamed
    have hunique : (∀ digits a, IsNumeral digits → cstr req.path = actionPath digits (Action.name a) →
        m.ReadsRight r digits a) ↔ m.ReadsRight r digits a := by
      refine ⟨fun h => h digits a hdigits hpath, fun h digits' a' hdigits' hpath' => ?_⟩
      obtain ⟨rfl, hname⟩ := actionPath_inj hdigits hdigits' (hpath.symm.trans hpath')
      obtain rfl := Action.name_injective hname
      exact h
    rw [hunique]
    by_cases hrefuses : r.refuses digits = true
    · -- the numeral is refused
      obtain ⟨hstatus, hm'⟩ :=
        handleApiActionWith_of_refused (c := c) (m := m) hpost hdigits hpath hrefuses
      refine iff_of_true (actsAsNamed_of_refused ⟨hstatus, by rw [hm']⟩) ?_
      cases a with
      | start => exact .inr (.inl hrefuses)
      | stop => exact .inr hrefuses
      | remove => exact .inr hrefuses
    rw [handleApiActionWith_of_path hpost hdigits hpath hrefuses]
    rcases lt_or_ge (value digits) m.torrents.length with hlt | hge
    · -- the torrent exists
      have hid := r.id_of_lt digits hdigits (by omega)
      refine iff_of_true (actsAsNamed_of_named hdigits hpath hlt hid) ?_
      cases a with
      | start => exact .inl (by omega)
      | stop => exact .inl hlt
      | remove => exact .inl hlt
    · -- it does not, so that the request must be refused
      rw [actsAsNamed_respond_iff hdigits hpath hge]
      cases a with
      | start =>
        rw [act, torrentMgrStart_refused_iff hm]
        refine ⟨fun h => .inr (.inr h), ?_⟩
        rintro (hlt | h | h)
        · intro mt hmt
          rw [r.id_of_lt digits hdigits hlt, torrentMgrGet, if_pos (.inr (by omega))] at hmt
          cases hmt
        · exact absurd h hrefuses
        · exact h
      | stop => exact iff_of_false (by simp [act]) (not_or.2 ⟨not_lt.2 hge, hrefuses⟩)
      | remove => exact iff_of_false (by simp [act]) (not_or.2 ⟨not_lt.2 hge, hrefuses⟩)
  · have hnot : ∀ digits a, IsNumeral digits → cstr req.path ≠ actionPath digits (Action.name a) :=
      fun digits a hdigits hpath => hnamed ⟨digits, a, hdigits, hpath⟩
    obtain ⟨hstatus, hm'⟩ := handleApiActionWith_of_not_names (c := c) (m := m) (r := r) hpost
      (prefix_of_findHandler hfind) hnot
    exact iff_of_true (actsAsNamed_of_refused ⟨hstatus, by rw [hm']⟩)
      fun digits a hdigits hpath => absurd hpath (hnot digits a hdigits)

/-! ### A numeral that is too long -/

/-- A manager with a torrent from a magnet link. -/
def magnetMgr : TorrentMgr := emptyMgr.run [.addMagnet [] none [] [] [] []]

theorem reachable_magnetMgr : Reachable magnetMgr := reachable_emptyMgr.run _

/-- The torrent with index 0 is stopped. -/
theorem actsAsNamed_magnet :
    ActsAsNamed (lit "/api/torrents/0/stop") magnetMgr
      (handleApiAction plainConsole (postRequest (lit "/api/torrents/0/stop") []) magnetMgr) := by
  obtain ⟨hwrapping, hiff⟩ :=
    @actsAsNamed_iff plainConsole (postRequest (lit "/api/torrents/0/stop") []) magnetMgr
      (by decide) (by decide) reachable_magnetMgr
  rw [← hwrapping]
  refine (hiff .wrapping).2 fun digits a hdigits hpath => ?_
  have hzero : lit "/api/torrents/0/stop" = actionPath (print 0) (Action.name .stop) := by decide
  obtain ⟨rfl, hname⟩ := actionPath_inj hdigits ⟨print_ne_nil 0, fun b => isDigit_of_mem_print⟩
    (hpath.symm.trans hzero)
  obtain rfl := Action.name_injective hname
  exact .inl (by decide)

/-- A numeral that is read as 0 removes the torrent with index 0, which it does not denote. -/
theorem not_actsAsNamed_wrapped :
    let req := postRequest (lit "/api/torrents/4294967296/remove") []
    req.method = .post ∧ findHandler req.path = some .action ∧ Reachable magnetMgr ∧
      (handleApiAction plainConsole req magnetMgr).2.torrents.length < magnetMgr.torrents.length ∧
      ¬ActsAsNamed (cstr req.path) magnetMgr (handleApiAction plainConsole req magnetMgr) := by
  refine ⟨by decide, by decide, reachable_magnetMgr, by decide +kernel, fun h => ?_⟩
  have hpath : cstr (postRequest (lit "/api/torrents/4294967296/remove") []).path =
      actionPath (lit "4294967296") (Action.name .remove) := by decide
  refine (h.failure fun n a hn => ?_).1 (by decide +kernel)
  have hvalue := ((names_iff ⟨by decide, by decide +kernel⟩ hpath).1 hn).1
  rw [hvalue]
  decide +kernel

example : (handleApiActionWith .unchecked plainConsole
    (postRequest (lit "/api/torrents/2147483648/stop") []) magnetMgr).1.statusCode = 200 := by
  decide +kernel

end PS5Torrent
