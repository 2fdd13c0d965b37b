import PS5Torrent.ConsoleFiles.Pages
import PS5Torrent.Library.JsonUnique
import PS5Torrent.TorrentMgr.Status

/-!
# The panel's list of torrents

`handle_api_torrents` sends the status of the torrents, printed into a buffer of
16384 bytes. With room for all of it (`StatusFits`), the reply is a document
with an object for each torrent; without, it is cut off, and then it is either
no document or shows an error that is cut off (`showsTorrents_iff`).
-/

namespace PS5Torrent

open Json Decimal

/-- `handle_api_torrents`, given what `%.3f` prints of the progress of each torrent. -/
def handleApiTorrents (m : TorrentMgr) (progress : ℕ → Bytes) : Reply :=
  .json 200 (cstr (m.torrentMgrStatusJson progress [] 16384))

/-- What `%.3f` prints of a number that is not negative: digits, the point and three digits. -/
def IsProgress (text : Bytes) : Prop :=
  ∃ n a b c, isDigit a ∧ isDigit b ∧ isDigit c ∧ text = print n ++ chr '.' :: [a, b, c]

/-- An object with the strings of a torrent. -/
def ShowsTorrent (mt : ManagedTorrent) (v : Value) : Prop :=
  ∃ members, v = .obj members ∧
    members.lookup (lit "name") = some (.str (cstr mt.name)) ∧
    members.lookup (lit "hash") = some (.str (cstr mt.id)) ∧
    members.lookup (lit "save_path") = some (.str (cstr mt.savePath)) ∧
    members.lookup (lit "error") = some (.str (cstr mt.errorMsg))

/-- A document with one object for each torrent, in their order. -/
def ShowsTorrents (mts : List ManagedTorrent) (text : Bytes) : Prop :=
  ∃ vs, IsText (.obj [(lit "torrents", .arr vs)]) text ∧ List.Forall₂ ShowsTorrent mts vs

variable {now i : ℕ} {text : Bytes} {progress : ℕ → Bytes} {mt mt' : ManagedTorrent}
  {mts mts' : List ManagedTorrent}

/-! ## Objects -/

/-- The object that is written for a torrent. -/
def statusValue (now : ℕ) (progress : Bytes) (i : ℕ) (mt : ManagedTorrent) : Value :=
  let remaining := if mt.totalSize > mt.downloaded then mt.totalSize - mt.downloaded else 0
  let elapsed := if mt.startTime > 0 ∧ now ≥ mt.startTime then now - mt.startTime else 0
  let piecesDone := if mt.torrent.numPieces ≠ 0 then mt.pieceMgr.numComplete else 0
  .obj [(lit "id", .num (printInt i)), (lit "name", .str (cstr mt.name)),
    (lit "hash", .str (cstr mt.id)), (lit "state", .str (stateStr mt.state)),
    (lit "progress", .num progress), (lit "size", .num (print mt.totalSize)),
    (lit "downloaded", .num (print mt.downloaded)), (lit "uploaded", .num (print mt.uploaded)),
    (lit "remaining", .num (print remaining)), (lit "speed_down", .num (print mt.speedDown)),
    (lit "speed_up", .num (print mt.speedUp)), (lit "peers", .num (printInt mt.peers.length)),
    (lit "active_peers", .num (printInt mt.activePeers)),
    (lit "pieces_done", .num (print piecesDone)),
    (lit "pieces_total", .num (print mt.torrent.numPieces)),
    (lit "elapsed", .num (print elapsed)),
    (lit "tracker_announces", .num (printInt mt.trackerAnnounces)),
    (lit "is_magnet", .bool mt.isMagnet), (lit "save_path", .str (cstr mt.savePath)),
    (lit "error", .str (cstr mt.errorMsg))]

/-- Its text. -/
def statusObject (now : ℕ) (progress : Bytes) (i : ℕ) (mt : ManagedTorrent) : Bytes :=
  [lit "\x7b\"id\":", printInt i, lit ",\"name\":", jsonString mt.name, lit ",\"hash\":",
    jsonString mt.id, statusNumbers now progress mt, jsonString mt.savePath, lit ",\"error\":",
    jsonString mt.errorMsg, lit "\x7d"].flatten

theorem isText_jsonString (s : Bytes) : IsText (.str (cstr s)) (jsonString s) :=
  .str (isBody_jsonStringByte (cstr s))

theorem isText_progress (h : IsProgress text) : IsText (.num text) text := by
  obtain ⟨n, a, b, c, ha, hb, hc, rfl⟩ := h
  refine .num ⟨[], print n, chr '.' :: [a, b, c], rfl, .inl rfl, isCanonical_print n,
    .inr ⟨[a, b, c], rfl, List.cons_ne_nil _ _, ?_⟩⟩
  simp [ha, hb, hc]

set_option maxRecDepth 8000 in
theorem isText_statusObject (h : IsProgress text) :
    IsText (statusValue now text i mt) (statusObject now text i mt) := by
  have hstate : IsText (.str (stateStr mt.state)) (lit "\"" ++ stateStr mt.state ++ lit "\"") := by
    refine .str (isBody_lit ?_)
    cases mt.state <;> rfl
  have hobj := IsText.obj (.cons (isMember_of_plain (lit "id") rfl (isText_int i))
    (.cons (isMember_of_plain (lit "name") rfl (isText_jsonString mt.name))
    (.cons (isMember_of_plain (lit "hash") rfl (isText_jsonString mt.id))
    (.cons (isMember_of_plain (lit "state") rfl hstate)
    (.cons (isMember_of_plain (lit "progress") rfl (isText_progress h))
    (.cons (isMember_of_plain (lit "size") rfl (.num (isNumber_print mt.totalSize)))
    (.cons (isMember_of_plain (lit "downloaded") rfl (.num (isNumber_print mt.downloaded)))
    (.cons (isMember_of_plain (lit "uploaded") rfl (.num (isNumber_print mt.uploaded)))
    (.cons (isMember_of_plain (lit "remaining") rfl (.num (isNumber_print
      (if mt.totalSize > mt.downloaded then mt.totalSize - mt.downloaded else 0))))
    (.cons (isMember_of_plain (lit "speed_down") rfl (.num (isNumber_print mt.speedDown)))
    (.cons (isMember_of_plain (lit "speed_up") rfl (.num (isNumber_print mt.speedUp)))
    (.cons (isMember_of_plain (lit "peers") rfl (isText_int mt.peers.length))
    (.cons (isMember_of_plain (lit "active_peers") rfl (isText_int mt.activePeers))
    (.cons (isMember_of_plain (lit "pieces_done") rfl (.num (isNumber_print
      (if mt.torrent.numPieces ≠ 0 then mt.pieceMgr.numComplete else 0))))
    (.cons (isMember_of_plain (lit "pieces_total") rfl (.num (isNumber_print mt.torrent.numPieces)))
    (.cons (isMember_of_plain (lit "elapsed") rfl (.num (isNumber_print
      (if mt.startTime > 0 ∧ now ≥ mt.startTime then now - mt.startTime else 0))))
    (.cons (isMember_of_plain (lit "tracker_announces") rfl (isText_int mt.trackerAnnounces))
    (.cons (isMember_of_plain (lit "is_magnet") rfl (isText_boolText mt.isMagnet))
    (.cons (isMember_of_plain (lit "save_path") rfl (isText_jsonString mt.savePath))
    (.cons (isMember_of_plain (lit "error") rfl (isText_jsonString mt.errorMsg))
      .nil))))))))))))))))))))
  have htext : ∀ t, t = statusObject now text i mt → IsText (statusValue now text i mt) t →
      IsText (statusValue now text i mt) (statusObject now text i mt) := fun t ht h => ht ▸ h
  refine htext _ ?_ hobj
  simp only [statusObject, statusNumbers, List.flatten_cons, List.flatten_nil, List.append_assoc,
    commas, List.cons_append, List.append_nil]
  rfl

/-! ## Documents -/

/-- The objects of the torrents from an index on. -/
def statusValues (now : ℕ) (progress : ℕ → Bytes) : ℕ → List ManagedTorrent → List Value
  | _, [] => []
  | i, mt :: mts => statusValue now (progress i) i mt :: statusValues now progress (i + 1) mts

def statusObjects (now : ℕ) (progress : ℕ → Bytes) : ℕ → List ManagedTorrent → List Bytes
  | _, [] => []
  | i, mt :: mts => statusObject now (progress i) i mt :: statusObjects now progress (i + 1) mts

theorem isText_statusObjects (h : ∀ k, i ≤ k → k < i + mts.length → IsProgress (progress k)) :
    List.Forall₂ IsText (statusValues now progress i mts) (statusObjects now progress i mts) := by
  induction mts generalizing i with
  | nil => exact .nil
  | cons mt mts ih =>
    rw [List.length_cons] at h
    exact .cons (isText_statusObject (h i le_rfl (by omega)))
      (ih fun k hk hlt => h k (by omega) (by omega))

theorem partsText_statusParts (now : ℕ) (text : Bytes) (i : ℕ) (mt : ManagedTorrent) :
    partsText (statusParts now text i mt) =
      (if i > 0 then lit "," else []) ++ statusObject now text i mt := by
  have hcomma : partsText (if i > 0 then [.print (lit ",")] else []) =
      if i > 0 then lit "," else [] := by
    split
    · rfl
    · rfl
  rw [statusParts, partsText_append, hcomma]
  simp only [partsText, List.flatMap_cons, List.flatMap_nil, JsonPart.text, statusObject,
    List.flatten_cons, List.flatten_nil, List.append_assoc]

/-- Behind the first torrent, a comma is written before each. -/
theorem partsText_statusLoop (i : ℕ) (mts : List ManagedTorrent) :
    partsText (statusLoop now progress i mts) =
      (if i > 0 ∧ mts ≠ [] then lit "," else []) ++ commas (statusObjects now progress i mts) := by
  induction mts generalizing i with
  | nil => rw [if_neg fun h => h.2 rfl]; rfl
  | cons mt mts ih =>
    have hcomma : (if i > 0 ∧ mt :: mts ≠ [] then lit "," else []) =
        if i > 0 then lit "," else [] := if_congr (and_iff_left (List.cons_ne_nil mt mts)) rfl rfl
    rw [statusLoop, partsText_append, partsText_statusParts, ih, hcomma, List.append_assoc]
    cases mts with
    | nil => exact congrArg (_ ++ ·) (List.append_nil _)
    | cons mt' mts =>
      rw [if_pos (⟨Nat.succ_pos i, List.cons_ne_nil _ _⟩ : i + 1 > 0 ∧ mt' :: mts ≠ [])]
      rfl

theorem partsText_statusCalls (now : ℕ) (progress : ℕ → Bytes) (mts : List ManagedTorrent) :
    partsText (statusCalls now progress mts) =
      lit "\x7b\"torrents\":[" ++ (commas (statusObjects now progress 0 mts) ++ lit "]\x7d") := by
  have hcomma : (if 0 > 0 ∧ mts ≠ [] then lit "," else []) = [] :=
    if_neg fun h => absurd h.1 (by decide)
  rw [statusCalls, partsText_append, partsText_append, partsText_statusLoop, hcomma,
    List.nil_append, List.append_assoc]
  rfl

/-- What is written for the torrents is a document. -/
theorem isText_statusCalls (h : ∀ i < mts.length, IsProgress (progress i)) :
    IsText (.obj [(lit "torrents", .arr (statusValues now progress 0 mts))])
      (partsText (statusCalls now progress mts)) := by
  have hobj := IsText.obj (.cons (isMember_of_plain (lit "torrents") rfl
    (.arr (@isText_statusObjects now 0 progress mts fun k _ hk => h k (by omega)))) .nil)
  have hopen : lit "\x7b\"torrents\":[" =
      code '{' :: chr '"' :: lit "torrents" ++ [chr '"', chr ':', code '['] := rfl
  have hclose : lit "]\x7d" = [code ']', code '}'] := rfl
  rw [partsText_statusCalls, hopen, hclose]
  simpa [commas] using hobj

/-! ## Strings that are cut off -/

/-- The second torrent has the strings of the first, or beginnings of them. -/
def CutTorrent (mt mt' : ManagedTorrent) : Prop :=
  ∃ name id savePath errorMsg, name <+: cstr mt.name ∧ id <+: cstr mt.id ∧
    savePath <+: cstr mt.savePath ∧ errorMsg <+: cstr mt.errorMsg ∧
    mt' = { mt with name, id, savePath, errorMsg }

theorem exists_append_of_forall₂ {α β : Type} {R : α → β → Prop} {as as' : List α} {bs : List β}
    (h : List.Forall₂ R (as ++ as') bs) :
    ∃ cs cs', bs = cs ++ cs' ∧ List.Forall₂ R as cs ∧ List.Forall₂ R as' cs' := by
  induction as generalizing bs with
  | nil => exact ⟨[], bs, rfl, .nil, h⟩
  | cons a as ih =>
    rcases h with _ | ⟨hR, h⟩
    obtain ⟨cs, cs', rfl, hcs, hcs'⟩ := ih h
    exact ⟨_ :: cs, cs', rfl, .cons hR hcs, hcs'⟩

/-- Calls that cut off strings of a torrent are those for a torrent with strings that are cut off. -/
theorem cut_statusParts {parts : List JsonPart}
    (h : List.Forall₂ JsonPart.Cut (statusParts now text i mt) parts) :
    ∃ mt', CutTorrent mt mt' ∧ parts = statusParts now text i mt' := by
  rw [statusParts] at h
  obtain ⟨comma, rest, rfl, hcomma, hrest⟩ := exists_append_of_forall₂ h
  have hsame : comma = if i > 0 then [.print (lit ",")] else [] := by
    split at hcomma
    · rename_i hi
      rcases hcomma with _ | ⟨hprint, hnil⟩
      cases hnil
      rw [if_pos hi]
      exact congrArg (· :: []) hprint
    · rename_i hi
      cases hcomma
      rw [if_neg hi]
  rcases hrest with _ | ⟨hid, _ | ⟨⟨name, hname, rfl⟩, _ | ⟨hhash, _ | ⟨⟨id, hid', rfl⟩,
    _ | ⟨hnumbers, _ | ⟨⟨savePath, hpath, rfl⟩, _ | ⟨herror, _ | ⟨⟨errorMsg, hmsg, rfl⟩,
      _ | ⟨hclose, _ | _⟩⟩⟩⟩⟩⟩⟩⟩⟩
  refine ⟨{ mt with name, id, savePath, errorMsg },
    ⟨name, id, savePath, errorMsg, hname, hid', hpath, hmsg, rfl⟩, ?_⟩
  rw [hsame, show _ = JsonPart.print _ from hid, show _ = JsonPart.print _ from hhash,
    show _ = JsonPart.print _ from hnumbers, show _ = JsonPart.print _ from herror,
    show _ = JsonPart.print _ from hclose]
  rfl

theorem cut_statusLoop {parts : List JsonPart}
    (h : List.Forall₂ JsonPart.Cut (statusLoop now progress i mts) parts) :
    ∃ mts', List.Forall₂ CutTorrent mts mts' ∧ parts = statusLoop now progress i mts' := by
  induction mts generalizing i parts with
  | nil =>
    cases h
    exact ⟨[], .nil, rfl⟩
  | cons mt mts ih =>
    obtain ⟨parts₁, parts₂, rfl, h₁, h₂⟩ := exists_append_of_forall₂ h
    obtain ⟨mt', hmt', rfl⟩ := cut_statusParts h₁
    obtain ⟨mts', hmts', rfl⟩ := ih h₂
    exact ⟨mt' :: mts', .cons hmt' hmts', rfl⟩

theorem cut_statusCalls {parts : List JsonPart}
    (h : List.Forall₂ JsonPart.Cut (statusCalls now progress mts) parts) :
    ∃ mts', List.Forall₂ CutTorrent mts mts' ∧ parts = statusCalls now progress mts' := by
  obtain ⟨front, close, rfl, hfront, hclose⟩ := exists_append_of_forall₂ h
  rcases hfront with _ | ⟨hopen, hloop⟩
  rcases hclose with _ | ⟨hclose, _ | _⟩
  obtain ⟨mts', hmts', rfl⟩ := cut_statusLoop hloop
  refine ⟨mts', hmts', ?_⟩
  rw [show _ = JsonPart.print _ from hopen, show _ = JsonPart.print _ from hclose]
  rfl

/-- A torrent that is shown has lost nothing of its strings. -/
theorem CutTorrent.statusObject_eq (h : CutTorrent mt mt')
    (hshows : ShowsTorrent mt (statusValue now text i mt')) :
    statusObject now text i mt' = statusObject now text i mt := by
  obtain ⟨name, id, savePath, errorMsg, -, -, -, -, rfl⟩ := h
  obtain ⟨members, hmembers, hname, hid, hpath, hmsg⟩ := hshows
  obtain rfl := Value.obj.inj hmembers
  have hname : cstr name = cstr mt.name := Value.str.inj (Option.some.inj hname)
  have hid : cstr id = cstr mt.id := Value.str.inj (Option.some.inj hid)
  have hpath : cstr savePath = cstr mt.savePath := Value.str.inj (Option.some.inj hpath)
  have hmsg : cstr errorMsg = cstr mt.errorMsg := Value.str.inj (Option.some.inj hmsg)
  simp only [statusObject, jsonString, hname, hid, hpath, hmsg]
  rfl

theorem statusObjects_eq_of_cut (h : List.Forall₂ CutTorrent mts mts')
    (hshows : List.Forall₂ ShowsTorrent mts (statusValues now progress i mts')) :
    statusObjects now progress i mts' = statusObjects now progress i mts := by
  induction h generalizing i with
  | nil => rfl
  | cons hcut _ ih =>
    rcases hshows with _ | ⟨hshow, hshows⟩
    rw [statusObjects, statusObjects, hcut.statusObject_eq hshow, ih hshows]

/-! ## The reply -/

theorem showsTorrent_statusValue : ShowsTorrent mt (statusValue now text i mt) :=
  ⟨_, rfl, rfl, rfl, rfl, rfl⟩

theorem showsTorrents_statusValues (i : ℕ) (mts : List ManagedTorrent) :
    List.Forall₂ ShowsTorrent mts (statusValues now progress i mts) := by
  induction mts generalizing i with
  | nil => exact .nil
  | cons mt mts ih => exact .cons showsTorrent_statusValue (ih (i + 1))

variable {m : TorrentMgr}

/-- A reply that is a document was written whole. -/
theorem statusFits_of_showsTorrents
    (hprogress : ∀ i < m.torrents.length, IsProgress (progress i))
    (hshows : ShowsTorrents m.torrents (handleApiTorrents m progress).text) :
    StatusFits 16384 (m.env m.queries).time progress m.torrents := by
  have hempty : (⟨16384, []⟩ : JsonWriter).text.length < (⟨16384, []⟩ : JsonWriter).size := by decide
  change ShowsTorrents m.torrents (cstr (writeParts ⟨16384, []⟩
    (statusCalls (m.env m.queries).time progress m.torrents)).text) at hshows
  generalize (m.env m.queries).time = now at *
  rw [← fitsParts_statusCalls_iff (by decide : 64 ≤ 16384)]
  refine (writeParts_eq_iff hempty _).1 ?_
  obtain ⟨vs, hdoc, hshows⟩ := hshows
  obtain ⟨parts, hparts, hle⟩ := exists_cut_writeParts hempty (statusCalls now progress m.torrents)
  obtain ⟨mts', hcut, rfl⟩ := cut_statusCalls hparts
  rw [hcut.length_eq] at hprogress
  -- the beginning of a document is no document, so nothing is cut off but strings
  have hcstr : cstr (writeParts ⟨16384, []⟩ (statusCalls now progress m.torrents)).text <+: _ :=
    List.takeWhile_prefix _
  obtain ⟨htext, hmembers⟩ := hdoc.unique_obj (isText_statusCalls hprogress) (hcstr.trans hle)
  obtain rfl : vs = statusValues now progress 0 mts' := by simpa using hmembers
  -- and the strings are those of the torrents
  rw [partsText_statusCalls, statusObjects_eq_of_cut hcut hshows, ← partsText_statusCalls] at htext hle
  refine hle.eq_of_length (hle.length_le.antisymm ?_)
  rw [List.nil_append, ← htext]
  exact length_cstr_le _

/-- The reply has an object with the strings of each torrent exactly if there is room for all. -/
theorem showsTorrents_iff (hprogress : ∀ i < m.torrents.length, IsProgress (progress i)) :
    ShowsTorrents m.torrents (handleApiTorrents m progress).text ↔
      StatusFits 16384 (m.env m.queries).time progress m.torrents := by
  refine ⟨statusFits_of_showsTorrents hprogress, fun hfits => ?_⟩
  have hempty : (⟨16384, []⟩ : JsonWriter).text.length < (⟨16384, []⟩ : JsonWriter).size := by decide
  have hall := (writeParts_eq_iff hempty _).2 ((fitsParts_statusCalls_iff (by decide)).2 hfits)
  have hdoc := @isText_statusCalls (m.env m.queries).time progress m.torrents hprogress
  refine ⟨statusValues (m.env m.queries).time progress 0 m.torrents, ?_,
    showsTorrents_statusValues 0 m.torrents⟩
  change IsText _ (cstr (writeParts ⟨16384, []⟩ _).text)
  rwa [hall, List.nil_append, cstr_of_not_mem (hdoc.not_mem (by decide))]

theorem isProgress_zero : IsProgress (lit "0.000") :=
  ⟨0, chr '0', chr '0', chr '0', rfl, rfl, rfl, rfl⟩

/-- A torrent file with a name. -/
def namedTorrent (name : Bytes) : Bytes :=
  lit "d4:infod6:lengthi1e4:name" ++ print name.length ++ chr ':' :: name ++
    lit "12:piece lengthi16384e6:pieces20:aaaaaaaaaaaaaaaaaaaaee"

/-- A manager to which torrent files are added. -/
def namedMgr (count : ℕ) (name savePath : Bytes) : TorrentMgr :=
  (TorrentMgr.init (sysWith []) (fun _ => []) calmEnv).run
    (List.replicate count (.addRaw (namedTorrent name) savePath []))

/-- A torrent with a short name is shown. -/
theorem showsTorrents_namedMgr :
    let m := namedMgr 1 (lit "n") (lit "/d/")
    ShowsTorrents m.torrents (handleApiTorrents m fun _ => lit "0.000").text := by
  intro m
  have hlength : (partsText (statusCalls (m.env m.queries).time (fun _ => lit "0.000")
      m.torrents)).length < 16384 := by decide +kernel
  have hmsg : ∀ mt ∈ m.torrents, mt.errorMsg = [] := by decide +kernel
  refine (showsTorrents_iff fun _ _ => isProgress_zero).2 ⟨hlength, fun mt hmt c hc => ?_⟩
  rw [hmsg mt (List.mem_of_getLast? hmt)] at hc
  cases hc

theorem mul_le_length_statusLoop {k : ℕ}
    (h : ∀ mt ∈ mts, k ≤ (jsonString mt.name).length + (jsonString mt.savePath).length) (i : ℕ) :
    mts.length * k ≤ (partsText (statusLoop now progress i mts)).length := by
  induction mts generalizing i with
  | nil => exact (Nat.zero_mul k).le
  | cons mt mts ih =>
    have hmt := h mt List.mem_cons_self
    have ih := ih (fun mt' hmt' => h mt' (List.mem_cons_of_mem _ hmt')) (i + 1)
    rw [statusLoop, partsText_append, partsText_statusParts, List.length_cons, Nat.succ_mul]
    simp only [statusObject, List.flatten_cons, List.length_append]
    omega

/-- Eight torrents with names of control characters. -/
theorem not_showsTorrents_crowded :
    let m := namedMgr 8 (List.replicate 255 1) (lit "/data/" ++ List.replicate 400 (chr '"'))
    Reachable m ∧ (∀ i < m.torrents.length, IsProgress (lit "0.000")) ∧
      ¬ShowsTorrents m.torrents (handleApiTorrents m fun _ => lit "0.000").text := by
  intro m
  refine ⟨⟨_, _, _, _, rfl⟩, fun _ _ => isProgress_zero, fun hshows => ?_⟩
  have hfits := (statusFits_of_showsTorrents (fun _ _ => isProgress_zero) hshows).1
  have htorrents : m.torrents.length = 8 ∧ ∀ mt ∈ m.torrents,
      2330 ≤ (jsonString mt.name).length + (jsonString mt.savePath).length := by decide +kernel
  have hloop := @mul_le_length_statusLoop (m.env m.queries).time (fun _ => lit "0.000") _ _
    htorrents.2 0
  rw [statusCalls, partsText_append, partsText_append, List.length_append, List.length_append] at hfits
  omega

end PS5Torrent
