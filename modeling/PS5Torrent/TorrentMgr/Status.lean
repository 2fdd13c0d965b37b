import PS5Torrent.Numerals
import PS5Torrent.TorrentMgr
import PS5Torrent.TorrentMgr.StatusJson

/-!
# The status of the torrents

`torrent_mgr_status_json` as a list of calls of the writer (`JsonPart`). A call
writes its text whole exactly if there is room for it (`JsonPart.Fits`), which
for the characters of a string is more than they need; otherwise the text is
cut off, and a string may be cut off before the rest goes on
(`exists_cut_writeParts`).
-/

namespace PS5Torrent

/-- A call of the writer: a text that is printed, or a string literal. -/
inductive JsonPart
  | print (s : Bytes)
  | string (value : Bytes)

namespace JsonPart

def write (w : JsonWriter) : JsonPart → JsonWriter
  | .print s => jsonWritef w s
  | .string value => jsonWriteString w value

/-- What a call writes, if there is room. -/
def text : JsonPart → Bytes
  | .print s => s
  | .string value => jsonString value

/-- There is room for what a call writes at a position, and for the last character of a string
    there are the 7 bytes that the loop asks for. -/
def Fits (size pos : ℕ) : JsonPart → Prop
  | .print s => pos + s.length < size
  | .string value => pos + (jsonString value).length < size ∧
    ∀ c ∈ (cstr value).getLast?,
      pos + (jsonString value).length + 6 < size + (jsonStringByte c).length

/-- The second call writes what the first does, or a string that is cut off. -/
def Cut : JsonPart → JsonPart → Prop
  | .print s, part => part = .print s
  | .string value, part => ∃ value', value' <+: cstr value ∧ part = .string value'

end JsonPart

/-- One call of the writer after the other. -/
def writeParts (w : JsonWriter) (parts : List JsonPart) : JsonWriter :=
  parts.foldl JsonPart.write w

def partsText (parts : List JsonPart) : Bytes := parts.flatMap JsonPart.text

/-! ## The status -/

/-- `state_str` -/
def stateStr : TorrentState → Bytes
  | .stopped => lit "stopped"
  | .downloading => lit "downloading"
  | .seeding => lit "seeding"
  | .error => lit "error"
  | .done => lit "done"

/-- The members of a torrent between its hash and its save path. -/
def statusNumbers (now : ℕ) (progress : Bytes) (mt : ManagedTorrent) : Bytes :=
  let remaining := if mt.totalSize > mt.downloaded then mt.totalSize - mt.downloaded else 0
  let elapsed := if mt.startTime > 0 ∧ now ≥ mt.startTime then now - mt.startTime else 0
  let piecesTotal := mt.torrent.numPieces
  let piecesDone := if piecesTotal ≠ 0 then mt.pieceMgr.numComplete else 0
  [lit ",\"state\":\"", stateStr mt.state, lit "\",\"progress\":", progress,
    lit ",\"size\":", Decimal.print mt.totalSize, lit ",\"downloaded\":", Decimal.print mt.downloaded,
    lit ",\"uploaded\":", Decimal.print mt.uploaded, lit ",\"remaining\":", Decimal.print remaining,
    lit ",\"speed_down\":", Decimal.print mt.speedDown, lit ",\"speed_up\":", Decimal.print mt.speedUp,
    lit ",\"peers\":", printInt mt.peers.length, lit ",\"active_peers\":", printInt mt.activePeers,
    lit ",\"pieces_done\":", Decimal.print piecesDone,
    lit ",\"pieces_total\":", Decimal.print piecesTotal, lit ",\"elapsed\":", Decimal.print elapsed,
    lit ",\"tracker_announces\":", printInt mt.trackerAnnounces,
    lit ",\"is_magnet\":", (if mt.isMagnet then lit "true" else lit "false"),
    lit ",\"save_path\":"].flatten

/-- The calls for a torrent, whose progress is printed with `%.3f`. -/
def statusParts (now : ℕ) (progress : Bytes) (i : ℕ) (mt : ManagedTorrent) : List JsonPart :=
  (if i > 0 then [.print (lit ",")] else []) ++
    [.print (lit "\x7b\"id\":" ++ printInt i ++ lit ",\"name\":"),
      .string mt.name,
      .print (lit ",\"hash\":"),
      .string mt.id,
      .print (statusNumbers now progress mt),
      .string mt.savePath,
      .print (lit ",\"error\":"),
      .string mt.errorMsg,
      .print (lit "\x7d")]

/-- The loop over the torrents, from an index on. -/
def statusLoop (now : ℕ) (progress : ℕ → Bytes) : ℕ → List ManagedTorrent → List JsonPart
  | _, [] => []
  | i, mt :: mts => statusParts now (progress i) i mt ++ statusLoop now progress (i + 1) mts

/-- All the calls. -/
def statusCalls (now : ℕ) (progress : ℕ → Bytes) (mts : List ManagedTorrent) : List JsonPart :=
  [.print (lit "\x7b\"torrents\":[")] ++ statusLoop now progress 0 mts ++ [.print (lit "]\x7d")]

namespace TorrentMgr

/-- `torrent_mgr_status_json`: what is in the buffer up to the NUL, given what `%.3f` prints of
    the progress of each torrent. -/
def torrentMgrStatusJson (m : TorrentMgr) (progress : ℕ → Bytes) (buf : Bytes) (bufsz : ℕ) : Bytes :=
  if bufsz < 64 then buf
  else
    (writeParts ⟨bufsz, []⟩ (statusCalls (m.env m.queries).time progress m.torrents)).text

end TorrentMgr

variable {w : JsonWriter} {s p : Bytes} {part : JsonPart} {parts : List JsonPart}

/-! ## Room -/

/-- A text that is printed is cut off where the room ends. -/
theorem jsonWritef_cases (hw : w.text.length < w.size) (s : Bytes) :
    (jsonWritef w s).text = w.text ++ s ∧ w.text.length + s.length < w.size ∨
      (jsonWritef w s).text <+: w.text ++ s ∧ (jsonWritef w s).text.length + 1 = w.size ∧
        w.size ≤ w.text.length + s.length := by
  by_cases hs : w.text.length + s.length < w.size
  · exact Or.inl ⟨by rw [jsonWritef_of_lt hs], hs⟩
  · refine Or.inr ⟨?_, ?_, not_lt.1 hs⟩
    · rw [jsonWritef, if_neg (not_le.2 hw)]
      exact (List.prefix_append_right_inj _).2 (List.take_prefix _ _)
    · rw [jsonWritef, if_neg (not_le.2 hw), List.length_append, List.length_take]
      omega

theorem size_jsonWriteChars (w : JsonWriter) (p : Bytes) : (jsonWriteChars w p).size = w.size := by
  induction p generalizing w with
  | nil => rfl
  | cons c p ih =>
    rw [jsonWriteChars]
    split
    · rw [ih, size_jsonWritef]
    · rfl

/-- The characters of a string are written up to one of them, each whole. -/
theorem exists_jsonWriteChars (hw : w.text.length < w.size) (p : Bytes) :
    ∃ q, q <+: p ∧ (jsonWriteChars w p).text = w.text ++ q.flatMap jsonStringByte ∧
      (jsonWriteChars w p).text.length < w.size := by
  induction p generalizing w with
  | nil => exact ⟨[], List.prefix_rfl, (List.append_nil _).symm, hw⟩
  | cons c p ih =>
    by_cases hroom : w.text.length + 7 < w.size
    · have hle := (length_jsonStringByte_le c).2
      have hwrite := @jsonWritef_of_lt w (jsonStringByte c) (by omega)
      obtain ⟨q, hq, htext, hlt⟩ := @ih { w with text := w.text ++ jsonStringByte c } (by
        simp only [List.length_append]
        omega)
      refine ⟨c :: q, (List.cons_prefix_cons).2 ⟨rfl, hq⟩, ?_, ?_⟩
      · rw [jsonWriteChars, if_pos hroom, hwrite, htext, List.flatMap_cons, List.append_assoc]
      · rw [jsonWriteChars, if_pos hroom, hwrite]
        exact hlt
    · refine ⟨[], List.nil_prefix, ?_, ?_⟩
      · rw [jsonWriteChars, if_neg hroom, List.flatMap_nil, List.append_nil]
      · rwa [jsonWriteChars, if_neg hroom]

theorem length_jsonStringByte_le_flatMap {c : UInt8} (hc : c ∈ p) :
    (jsonStringByte c).length ≤ (p.flatMap jsonStringByte).length := by
  obtain ⟨x, y, rfl⟩ := List.append_of_mem hc
  rw [List.flatMap_append, List.flatMap_cons, List.length_append, List.length_append]
  omega

/-- All the characters are written exactly if the last one finds the room that is asked for. -/
theorem jsonWriteChars_eq_iff (hw : w.text.length < w.size) (p : Bytes) :
    (jsonWriteChars w p).text = w.text ++ p.flatMap jsonStringByte ↔ ∀ c ∈ p.getLast?,
      w.text.length + (p.flatMap jsonStringByte).length + 7 < w.size + (jsonStringByte c).length := by
  induction p generalizing w with
  | nil => exact iff_of_true (List.append_nil _).symm fun c hc => by cases hc
  | cons c p ih =>
    obtain ⟨hpos, hle⟩ := length_jsonStringByte_le c
    obtain ⟨d, hd⟩ := Option.isSome_iff_exists.1
      (List.getLast?_isSome.2 (List.cons_ne_nil c p))
    have hlast := length_jsonStringByte_le_flatMap (List.mem_of_getLast? hd)
    have hcond : (∀ b ∈ (c :: p).getLast?, w.text.length + ((c :: p).flatMap jsonStringByte).length + 7 <
        w.size + (jsonStringByte b).length) ↔ w.text.length +
          ((c :: p).flatMap jsonStringByte).length + 7 < w.size + (jsonStringByte d).length := by
      rw [hd]
      exact ⟨fun h => h d rfl, fun h b hb => Option.some.inj hb ▸ h⟩
    by_cases hroom : w.text.length + 7 < w.size
    · have hwrite := @jsonWritef_of_lt w (jsonStringByte c) (by omega)
      have hlt : (w.text ++ jsonStringByte c).length < w.size := by
        rw [List.length_append]
        omega
      rw [jsonWriteChars, if_pos hroom, hwrite, List.flatMap_cons, ← List.append_assoc,
        @ih { w with text := w.text ++ jsonStringByte c } hlt, hd]
      rcases p with _ | ⟨c', p⟩
      · obtain rfl : c = d := Option.some.inj hd
        refine iff_of_true (fun b hb => by cases hb) fun b hb => ?_
        obtain rfl := Option.some.inj hb
        rw [List.flatMap_nil, List.append_nil]
        omega
      · rw [List.getLast?_cons_cons] at hd
        rw [hd]
        refine forall₂_congr fun b _ => ?_
        rw [List.length_append, List.length_append]
        dsimp only
        omega
    · rw [hcond, jsonWriteChars, if_neg hroom]
      refine iff_of_false (fun heq => ?_) (by omega)
      have hlen := congrArg List.length heq
      rw [List.flatMap_cons, List.length_append, List.length_append] at hlen
      omega

theorem cstr_of_prefix {q value : Bytes} (hq : q <+: cstr value) : cstr q = q :=
  cstr_of_not_mem fun h => not_mem_cstr value (hq.subset h)

/-- A string literal is written up to one of its characters, or cut off where the room ends. -/
theorem exists_jsonWriteString (hw : w.text.length < w.size) (value : Bytes) :
    ∃ q, q <+: cstr value ∧ ((jsonWriteString w value).text = w.text ++ jsonString q ∧
        (jsonWriteString w value).text.length < w.size ∨
      (jsonWriteString w value).text <+: w.text ++ jsonString q ∧
        (jsonWriteString w value).text.length + 1 = w.size) := by
  have hsize := size_jsonWritef w (lit "\"")
  have hlt : (jsonWritef w (lit "\"")).text.length < (jsonWritef w (lit "\"")).size := by
    rcases jsonWritef_cases hw (lit "\"") with ⟨htext, hlen⟩ | ⟨-, hlen, -⟩
    · rw [htext, hsize, List.length_append]
      exact hlen
    · omega
  obtain ⟨q, hq, hchars, hlt'⟩ := exists_jsonWriteChars hlt (cstr value)
  have hsize' := size_jsonWriteChars (jsonWritef w (lit "\"")) (cstr value)
  rw [← hsize'] at hlt'
  have hclose := jsonWritef_cases hlt' (lit "\"")
  rcases jsonWritef_cases hw (lit "\"") with ⟨hopen, hlen⟩ | ⟨hopen, hlen, -⟩
  · -- the opening quote is written
    have hwhole : (jsonWriteChars (jsonWritef w (lit "\"")) (cstr value)).text ++ lit "\"" =
        w.text ++ jsonString q := by
      rw [hchars, hopen, jsonString, cstr_of_prefix hq]
      simp only [List.append_assoc]
    refine ⟨q, hq, ?_⟩
    rw [hwhole, hsize', hsize] at hclose
    rcases hclose with ⟨htext, hlen⟩ | ⟨htext, hlen, -⟩
    · refine Or.inl ⟨htext, ?_⟩
      rw [jsonWriteString, htext, ← hwhole, List.length_append]
      exact hlen
    · exact Or.inr ⟨htext, hlen⟩
  · -- nothing is written any more
    have hquote : (lit "\"").length = 1 := rfl
    have hsame : (jsonWriteChars (jsonWritef w (lit "\"")) (cstr value)).text =
        (jsonWritef w (lit "\"")).text := by
      have hlen' := congrArg List.length hchars
      rw [List.length_append] at hlen'
      have hnil : q.flatMap jsonStringByte = [] := List.eq_nil_of_length_eq_zero (by omega)
      rw [hchars, hnil, List.append_nil]
    rw [hsize', hsize, hsame] at hclose
    rcases hclose with ⟨-, hlen'⟩ | ⟨htext, hlen', -⟩
    · omega
    · have hfinal := List.prefix_of_prefix_length_le htext (List.prefix_append _ (lit "\""))
        (by omega)
      have heq := hfinal.eq_of_length (by omega)
      refine ⟨[], List.nil_prefix, Or.inr ⟨?_, hlen'⟩⟩
      rw [jsonWriteString, heq]
      refine hopen.trans ((List.prefix_append_right_inj _).2 ?_)
      exact ⟨lit "\"", rfl⟩

/-! ## Calls -/

namespace JsonPart

variable {part' : JsonPart} {size pos : ℕ}

theorem size_write (w : JsonWriter) (part : JsonPart) : (part.write w).size = w.size := by
  cases part with
  | print s => exact size_jsonWritef w s
  | string value =>
    rw [write, jsonWriteString, size_jsonWritef, size_jsonWriteChars, size_jsonWritef]

/-- A call writes the text of another one that cuts off a string, up to where the room ends. -/
theorem exists_cut (hw : w.text.length < w.size) (part : JsonPart) :
    ∃ part', part.Cut part' ∧ ((part.write w).text = w.text ++ part'.text ∧
        (part.write w).text.length < w.size ∨
      (part.write w).text <+: w.text ++ part'.text ∧ (part.write w).text.length + 1 = w.size) := by
  cases part with
  | print s =>
    refine ⟨.print s, rfl, ?_⟩
    rcases jsonWritef_cases hw s with ⟨htext, hlen⟩ | ⟨htext, hlen, -⟩
    · refine Or.inl ⟨htext, ?_⟩
      rw [write, htext, List.length_append]
      exact hlen
    · exact Or.inr ⟨htext, hlen⟩
  | string value =>
    obtain ⟨q, hq, h⟩ := exists_jsonWriteString hw value
    exact ⟨.string q, ⟨q, hq, rfl⟩, h⟩

theorem length_write_lt (hw : w.text.length < w.size) (part : JsonPart) :
    (part.write w).text.length < (part.write w).size := by
  rw [size_write]
  obtain ⟨-, -, ⟨-, hlen⟩ | ⟨-, hlen⟩⟩ := part.exists_cut hw
  · exact hlen
  · omega

/-- A string that is cut off is shorter. -/
theorem Cut.length_le (h : part.Cut part') :
    part'.text.length ≤ part.text.length ∧
      (part'.text.length = part.text.length → part'.text = part.text) := by
  cases part with
  | print s =>
    obtain rfl : part' = .print s := h
    exact ⟨le_rfl, fun _ => rfl⟩
  | string value =>
    obtain ⟨q, ⟨x, hx⟩, rfl⟩ := h
    have hq : cstr q = q := cstr_of_prefix ⟨x, hx⟩
    have htext : (string value).text =
        lit "\"" ++ (q.flatMap jsonStringByte ++ x.flatMap jsonStringByte) ++ lit "\"" := by
      rw [text, jsonString, ← hx, List.flatMap_append]
    rw [htext, text, jsonString, hq]
    constructor
    · simp only [List.length_append]
      omega
    · intro hlen
      simp only [List.length_append] at hlen
      have hnil : x.flatMap jsonStringByte = [] := List.eq_nil_of_length_eq_zero (by omega)
      rw [hnil, List.append_nil]

/-- A call writes at most its text, and all of it if it writes as many bytes. -/
theorem length_write_le (hw : w.text.length < w.size) (part : JsonPart) :
    (part.write w).text.length ≤ w.text.length + part.text.length ∧
      ((part.write w).text.length = w.text.length + part.text.length →
        (part.write w).text = w.text ++ part.text) := by
  obtain ⟨part', hcut, h⟩ := part.exists_cut hw
  obtain ⟨hle, heq⟩ := hcut.length_le
  have hprefix : (part.write w).text <+: w.text ++ part'.text := by
    rcases h with ⟨htext, -⟩ | ⟨htext, -⟩
    · rw [htext]
    · exact htext
  have hlen := hprefix.length_le
  rw [List.length_append] at hlen
  refine ⟨by omega, fun hall => ?_⟩
  rw [← heq (by omega)]
  refine hprefix.eq_of_length ?_
  rw [List.length_append]
  omega

/-- A call writes its text whole exactly if there is room. -/
theorem write_eq_iff (hw : w.text.length < w.size) (part : JsonPart) :
    (part.write w).text = w.text ++ part.text ↔ part.Fits w.size w.text.length := by
  cases part with
  | print s =>
    rw [Fits, text, write]
    rcases jsonWritef_cases hw s with ⟨htext, hlen⟩ | ⟨-, hlen, hle⟩
    · exact iff_of_true htext hlen
    · refine iff_of_false (fun heq => ?_) (not_lt.2 hle)
      rw [heq, List.length_append] at hlen
      omega
  | string value =>
    have hquote : (lit "\"").length = 1 := rfl
    have hlen : (jsonString value).length = ((cstr value).flatMap jsonStringByte).length + 2 := by
      rw [jsonString, List.length_append, List.length_append, hquote]
      omega
    have hopened (h : w.text.length + (jsonString value).length < w.size) :
        jsonWritef w (lit "\"") = ⟨w.size, w.text ++ lit "\""⟩ := jsonWritef_of_lt (by omega)
    have hopenlt (h : w.text.length + (jsonString value).length < w.size) :
        (w.text ++ lit "\"").length < w.size := by
      rw [List.length_append]
      omega
    -- the condition on the characters, behind the opening quote
    have hchars (h : w.text.length + (jsonString value).length < w.size) :
        (jsonWriteChars ⟨w.size, w.text ++ lit "\""⟩ (cstr value)).text =
            w.text ++ lit "\"" ++ (cstr value).flatMap jsonStringByte ↔
          ∀ c ∈ (cstr value).getLast?,
            w.text.length + (jsonString value).length + 6 < w.size + (jsonStringByte c).length := by
      rw [jsonWriteChars_eq_iff (w := ⟨w.size, w.text ++ lit "\""⟩) (hopenlt h)]
      refine forall₂_congr fun c _ => ?_
      rw [hlen, List.length_append, hquote]
      dsimp only
      omega
    constructor
    · intro heq
      have hall : w.text.length + (jsonString value).length < w.size := by
        have hlt := length_write_lt hw (.string value)
        rwa [heq, size_write, List.length_append] at hlt
      refine ⟨hall, (hchars hall).1 ?_⟩
      rw [text, write, jsonWriteString, hopened hall] at heq
      obtain ⟨q, ⟨x, hx⟩, htext, hlt⟩ :=
        exists_jsonWriteChars (w := ⟨w.size, w.text ++ lit "\""⟩) (hopenlt hall) (cstr value)
      have hlt' : (jsonWriteChars ⟨w.size, w.text ++ lit "\""⟩ (cstr value)).text.length <
          (jsonWriteChars ⟨w.size, w.text ++ lit "\""⟩ (cstr value)).size := by
        rw [size_jsonWriteChars]
        exact hlt
      have hwhole : w.text ++ jsonString value =
          (jsonWriteChars ⟨w.size, w.text ++ lit "\""⟩ (cstr value)).text ++ lit "\"" := by
        rcases jsonWritef_cases hlt' (lit "\"") with ⟨hclose, -⟩ | ⟨hclose, -⟩
        · exact heq.symm.trans hclose
        · rw [heq] at hclose
          refine hclose.eq_of_length_le ?_
          rw [htext, List.length_append, List.length_append, List.length_append, List.length_append,
            hlen, hquote, ← hx, List.flatMap_append, List.length_append]
          omega
      rw [jsonString, ← List.append_assoc, ← List.append_assoc] at hwhole
      exact (List.append_cancel_right hwhole).symm
    · rintro ⟨hall, hlast⟩
      have hwritten := (hchars hall).2 hlast
      have hsize : (jsonWriteChars ⟨w.size, w.text ++ lit "\""⟩ (cstr value)).size = w.size :=
        size_jsonWriteChars _ _
      rw [text, write, jsonWriteString, hopened hall, jsonWritef_of_lt, hwritten, jsonString]
      · simp only [List.append_assoc]
      · rw [hwritten, hsize, List.length_append, List.length_append]
        omega

end JsonPart

/-! ## One call after the other -/

/-- There is room for all that the calls write, from a position on. -/
def FitsParts (size : ℕ) : ℕ → List JsonPart → Prop
  | _, [] => True
  | pos, part :: parts => part.Fits size pos ∧ FitsParts size (pos + part.text.length) parts

@[simp]
theorem partsText_cons (part : JsonPart) (parts : List JsonPart) :
    partsText (part :: parts) = part.text ++ partsText parts := List.flatMap_cons

@[simp]
theorem partsText_append (parts parts' : List JsonPart) :
    partsText (parts ++ parts') = partsText parts ++ partsText parts' := List.flatMap_append

theorem length_writeParts_le (hw : w.text.length < w.size) (parts : List JsonPart) :
    (writeParts w parts).text.length < w.size ∧
      (writeParts w parts).text.length ≤ w.text.length + (partsText parts).length := by
  induction parts generalizing w with
  | nil => exact ⟨hw, Nat.le_add_right _ _⟩
  | cons part parts ih =>
    have hlt := part.length_write_lt hw
    have hle := (part.length_write_le hw).1
    obtain ⟨hroom, hrest⟩ := ih hlt
    rw [part.size_write] at hroom
    refine ⟨hroom, hrest.trans ?_⟩
    rw [partsText_cons, List.length_append]
    omega

/-- The calls write all their texts exactly if there is room for each. -/
theorem writeParts_eq_iff (hw : w.text.length < w.size) (parts : List JsonPart) :
    (writeParts w parts).text = w.text ++ partsText parts ↔
      FitsParts w.size w.text.length parts := by
  induction parts generalizing w with
  | nil => exact iff_of_true (List.append_nil _).symm trivial
  | cons part parts ih =>
    have hlt := part.length_write_lt hw
    rw [FitsParts, ← part.write_eq_iff hw, partsText_cons]
    by_cases heq : (part.write w).text = w.text ++ part.text
    · have ih := ih hlt
      rw [part.size_write, heq, List.length_append] at ih
      rw [and_iff_right heq, ← ih, List.append_assoc]
      exact Iff.rfl
    · refine iff_of_false (fun hall => ?_) fun h => heq h.1
      obtain ⟨hle, hfull⟩ := part.length_write_le hw
      have hrest := (length_writeParts_le hlt parts).2
      have hlen := congrArg List.length hall
      rw [List.length_append, List.length_append] at hlen
      refine heq (hfull (hle.antisymm ?_))
      change (writeParts (part.write w) parts).text.length = _ at hlen
      omega

theorem fitsParts_append {size pos : ℕ} {parts parts' : List JsonPart} :
    FitsParts size pos (parts ++ parts') ↔
      FitsParts size pos parts ∧ FitsParts size (pos + (partsText parts).length) parts' := by
  induction parts generalizing pos with
  | nil => exact (and_iff_right trivial).symm
  | cons part parts ih =>
    rw [List.cons_append, FitsParts, FitsParts, ih, and_assoc, partsText_cons, List.length_append,
      Nat.add_assoc]

/-- Without room, nothing is written any more. -/
theorem writeParts_of_full (hw : w.text.length + 1 = w.size) (parts : List JsonPart) :
    (writeParts w parts).text = w.text := by
  induction parts generalizing w with
  | nil => rfl
  | cons part parts ih =>
    have hlt : w.text.length < w.size := by omega
    have hsame : (part.write w).text = w.text := by
      obtain ⟨part', -, ⟨htext, hlen⟩ | ⟨htext, hlen⟩⟩ := part.exists_cut hlt
      · rw [htext, List.length_append] at hlen
        have hnil : part'.text = [] := List.eq_nil_of_length_eq_zero (by omega)
        rw [htext, hnil, List.append_nil]
      · exact (List.prefix_of_prefix_length_le htext (List.prefix_append _ _)
          (by omega)).eq_of_length (by omega)
    exact (ih (by rw [part.size_write, hsame, hw])).trans hsame

/-- The calls write the beginning of what calls would write that cut off some of the strings. -/
theorem exists_cut_writeParts (hw : w.text.length < w.size) (parts : List JsonPart) :
    ∃ parts', List.Forall₂ JsonPart.Cut parts parts' ∧
      (writeParts w parts).text <+: w.text ++ partsText parts' := by
  induction parts generalizing w with
  | nil => exact ⟨[], .nil, List.prefix_append _ _⟩
  | cons part parts ih =>
    obtain ⟨part', hcut, ⟨htext, -⟩ | ⟨htext, hfull⟩⟩ := part.exists_cut hw
    · obtain ⟨parts', hcuts, hle⟩ := ih (part.length_write_lt hw)
      refine ⟨part' :: parts', .cons hcut hcuts, ?_⟩
      rw [htext, List.append_assoc] at hle
      exact hle
    · obtain ⟨parts', hcuts, -⟩ := ih (part.length_write_lt hw)
      refine ⟨part' :: parts', .cons hcut hcuts, ?_⟩
      rw [← part.size_write] at hfull
      have hsame : (writeParts w (part :: parts)).text = (part.write w).text :=
        writeParts_of_full hfull parts
      rw [hsame]
      refine htext.trans ((List.prefix_append_right_inj _).2 ?_)
      exact List.prefix_append _ _

/-! ## Room for the status -/

/-- What comes after each string is longer than the room that the loop asks for. -/
def Spread : List JsonPart → Prop
  | [] => True
  | .print _ :: parts => Spread parts
  | .string _ :: parts => 5 ≤ (partsText parts).length ∧ Spread parts

theorem Spread.append {parts parts' : List JsonPart} (h : Spread parts) (h' : Spread parts') :
    Spread (parts ++ parts') := by
  induction parts with
  | nil => exact h'
  | cons part parts ih =>
    cases part with
    | print s => exact ih h
    | string value =>
      refine ⟨?_, ih h.2⟩
      change 5 ≤ (partsText (parts ++ parts')).length
      rw [partsText_append, List.length_append]
      exact h.1.trans (Nat.le_add_right _ _)

/-- Calls whose strings are spread have room if all that they write has. -/
theorem Spread.fits {size pos : ℕ} (h : Spread parts)
    (hlen : pos + (partsText parts).length < size) : FitsParts size pos parts := by
  induction parts generalizing pos with
  | nil => trivial
  | cons part parts ih =>
    rw [partsText_cons, List.length_append] at hlen
    cases part with
    | print s =>
      refine ⟨?_, ih h (by rwa [Nat.add_assoc])⟩
      change pos + (s.length + (partsText parts).length) < size at hlen
      change pos + s.length < size
      omega
    | string value =>
      obtain ⟨hspace, h⟩ := h
      change pos + ((jsonString value).length + (partsText parts).length) < size at hlen
      refine ⟨⟨by omega, fun c _ => ?_⟩, ih h (by rwa [Nat.add_assoc])⟩
      have hpos := (length_jsonStringByte_le c).1
      omega

variable {now i : ℕ} {progress : ℕ → Bytes} {mt mt' : ManagedTorrent} {mts mts' : List ManagedTorrent}

theorem statusLoop_append (i : ℕ) (mts mts' : List ManagedTorrent) :
    statusLoop now progress i (mts ++ mts') =
      statusLoop now progress i mts ++ statusLoop now progress (i + mts.length) mts' := by
  induction mts generalizing i with
  | nil => rfl
  | cons mt mts ih =>
    rw [List.cons_append, statusLoop, statusLoop, ih, List.append_assoc, List.length_cons,
      Nat.add_right_comm, Nat.add_assoc]

/-- The calls for a torrent up to its error are spread. -/
theorem exists_statusParts (now : ℕ) (text : Bytes) (i : ℕ) (mt : ManagedTorrent) :
    ∃ front, statusParts now text i mt =
        front ++ [.string mt.errorMsg, .print (lit "\x7d")] ∧ Spread front ∧
      4 ≤ (partsText front).length := by
  have hnumbers : 5 ≤ (statusNumbers now text mt).length := by
    have hten : (lit ",\"state\":\"").length = 10 := rfl
    rw [statusNumbers, List.flatten_cons, List.length_append, hten]
    exact (by decide : 5 ≤ 10).trans (Nat.le_add_right 10 _)
  have hhash : 5 ≤ (lit ",\"hash\":").length := Nat.le_of_ble_eq_true rfl
  have herror : 5 ≤ (lit ",\"error\":").length := Nat.le_of_ble_eq_true rfl
  have hid : 4 ≤ (lit "\x7b\"id\":").length := Nat.le_of_ble_eq_true rfl
  have hspread : Spread [.print (lit "\x7b\"id\":" ++ printInt i ++ lit ",\"name\":"),
      .string mt.name, .print (lit ",\"hash\":"), .string mt.id,
      .print (statusNumbers now text mt), .string mt.savePath, .print (lit ",\"error\":")] := by
    refine ⟨?_, ?_, ?_, trivial⟩
    · exact hhash.trans (by rw [partsText_cons, List.length_append]; exact Nat.le_add_right _ _)
    · exact hnumbers.trans (by rw [partsText_cons, List.length_append]; exact Nat.le_add_right _ _)
    · exact herror.trans (by rw [partsText_cons, List.length_append]; exact Nat.le_add_right _ _)
  refine ⟨(if i > 0 then [.print (lit ",")] else []) ++ [.print (lit "\x7b\"id\":" ++ printInt i ++
      lit ",\"name\":"), .string mt.name, .print (lit ",\"hash\":"), .string mt.id,
      .print (statusNumbers now text mt), .string mt.savePath, .print (lit ",\"error\":")],
    ?_, ?_, ?_⟩
  · rw [statusParts]
    split
    · rfl
    · rfl
  · split
    · exact hspread
    · exact hspread
  · rw [partsText_append, List.length_append, partsText_cons, List.length_append]
    change 4 ≤ _ + ((lit "\x7b\"id\":" ++ printInt i ++ lit ",\"name\":").length + _)
    rw [List.length_append, List.length_append]
    omega

/-- There is room for the status: all of it is shorter than the buffer, and of the last error the
    last character is written early enough. -/
def StatusFits (size now : ℕ) (progress : ℕ → Bytes) (mts : List ManagedTorrent) : Prop :=
  (partsText (statusCalls now progress mts)).length < size ∧
    ∀ mt ∈ mts.getLast?, ∀ c ∈ (cstr mt.errorMsg).getLast?,
      (partsText (statusCalls now progress mts)).length + 3 < size + (jsonStringByte c).length

theorem Spread.statusLoop {parts : List JsonPart} (h : Spread parts)
    (hlen : 4 ≤ (partsText parts).length) (i : ℕ) (mts : List ManagedTorrent) :
    Spread (statusLoop now progress i mts ++ parts) ∧
      4 ≤ (partsText (statusLoop now progress i mts ++ parts)).length := by
  induction mts generalizing i with
  | nil => exact ⟨h, hlen⟩
  | cons mt mts ih =>
    obtain ⟨hrest, hlen⟩ := ih (i + 1)
    obtain ⟨front, hfront, hspread, hfour⟩ := exists_statusParts now (progress i) i mt
    rw [PS5Torrent.statusLoop, hfront, List.append_assoc, List.append_assoc]
    constructor
    · refine hspread.append ⟨?_, hrest⟩
      change 5 ≤ (partsText (.print (lit "\x7d") ::
        (PS5Torrent.statusLoop now progress (i + 1) mts ++ parts))).length
      rw [partsText_cons, List.length_append]
      exact Nat.add_le_add (le_refl 1) hlen
    · rw [partsText_append, List.length_append]
      exact hfour.trans (Nat.le_add_right _ _)

/-- Each call for the status has room exactly if all of it has. -/
theorem fitsParts_statusCalls_iff {size : ℕ} (hsize : 64 ≤ size) :
    FitsParts size 0 (statusCalls now progress mts) ↔ StatusFits size now progress mts := by
  have hopen : (lit "\x7b\"torrents\":[").length = 13 := rfl
  have hend : (lit "]\x7d").length = 2 := rfl
  have hclose : (lit "\x7d").length = 1 := rfl
  rcases List.eq_nil_or_concat' mts with rfl | ⟨init, mt, rfl⟩
  · have htext : (partsText (statusCalls now progress [])).length = 15 := rfl
    refine iff_of_true ⟨?_, ?_, trivial⟩ ⟨?_, fun mt hmt => by cases hmt⟩
    · change 0 + 13 < size
      omega
    · change 0 + 13 + 2 < size
      omega
    · rw [htext]
      omega
  · obtain ⟨front, hfront, hspread, hfour⟩ :=
      exists_statusParts now (progress (0 + init.length)) (0 + init.length) mt
    obtain ⟨hspread, -⟩ := @Spread.statusLoop now progress front hspread hfour 0 init
    have hcalls : statusCalls now progress (init ++ [mt]) =
        (.print (lit "\x7b\"torrents\":[") :: (statusLoop now progress 0 init ++ front)) ++
          [.string mt.errorMsg, .print (lit "\x7d"), .print (lit "]\x7d")] := by
      rw [statusCalls, statusLoop_append, statusLoop, statusLoop, hfront]
      simp only [List.append_assoc, List.cons_append, List.nil_append, List.append_nil]
    have hA : Spread (.print (lit "\x7b\"torrents\":[") :: (statusLoop now progress 0 init ++ front)) :=
      hspread
    generalize JsonPart.print (lit "\x7b\"torrents\":[") ::
      (statusLoop now progress 0 init ++ front) = A at hcalls hA
    have hlen : (partsText (statusCalls now progress (init ++ [mt]))).length =
        (partsText A).length + (jsonString mt.errorMsg).length + 3 := by
      rw [hcalls, partsText_append, partsText_cons, partsText_cons, partsText_cons]
      simp only [List.length_append]
      change _ + (_ + (1 + (2 + 0))) = _
      rfl
    rw [StatusFits, hlen, hcalls, fitsParts_append, List.getLast?_concat]
    constructor
    · rintro ⟨-, ⟨-, hlast⟩, -, hroom, -⟩
      change 0 + (partsText A).length + (jsonString mt.errorMsg).length + 1 + 2 < size at hroom
      refine ⟨by omega, fun mt' hmt' c hc => ?_⟩
      obtain rfl := Option.some.inj hmt'
      have hlast := hlast c hc
      omega
    · rintro ⟨hroom, hlast⟩
      refine ⟨hA.fits (by omega), ⟨?_, fun c hc => ?_⟩, ?_, ?_, trivial⟩
      · omega
      · have hlast := hlast mt rfl c hc
        omega
      · change 0 + (partsText A).length + (jsonString mt.errorMsg).length + 1 < size
        omega
      · change 0 + (partsText A).length + (jsonString mt.errorMsg).length + 1 + 2 < size
        omega

end PS5Torrent
