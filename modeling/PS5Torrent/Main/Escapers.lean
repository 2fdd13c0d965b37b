import PS5Torrent.ConsoleFiles.Listing
import PS5Torrent.TorrentMgr.StatusJson

/-!
# Three ways to escape a string

`json_write_string`, `json_escape_text` and `escape` differ in the control
characters that they write with two characters, and in what they do when there
is no room. With room, all write a text that a JSON reader reads as the string;
without, `json_escape_text` writes that of a beginning of it
(`escapers_denote`).
-/

namespace PS5Torrent

open Json

/-- The text is the inside of a string literal: each of its bytes stands for itself or is in an
    escape, there is no control character, and a reader reads the string from it. -/
structure Denotes (text s : Bytes) : Prop where
  body : IsBody s text
  no_control : ∀ b ∈ text, 0x20 ≤ b
  decode : decode text = some s

/-- `json_escape_text`, into a buffer. -/
def jsonEscapeTo (output : Bytes) (pos : ℕ) : Bytes → Option Bytes
  | [] => Buffer.write output pos [0]
  | c :: p =>
    if pos + (escapeByte c).length ≥ output.length then Buffer.write output pos [0]
    else
      (Buffer.write output pos (escapeByte c)).bind fun output =>
        jsonEscapeTo output (pos + (escapeByte c).length) p

def jsonEscapeTextTo (output input : Bytes) : Option Bytes :=
  if output.length = 0 then some output else jsonEscapeTo output 0 (cstr input)

variable {s text output : Bytes}

theorem Denotes.of_isBody (h : IsBody s text) : Denotes text s :=
  ⟨h, fun _ hb => h.le_of_mem hb, decode_of_isBody h⟩

/-- The text is written with its NUL, and within the buffer. -/
theorem jsonEscapeTo_eq {pos : ℕ} (hpos : pos < output.length) (p : Bytes) :
    jsonEscapeTo output pos p =
      Buffer.write output pos (jsonEscapeFrom output.length pos p ++ [0]) := by
  induction p generalizing output pos with
  | nil => rfl
  | cons c p ih =>
    rw [jsonEscapeTo, jsonEscapeFrom]
    split
    · rfl
    case isFalse hfit =>
      obtain ⟨output', hwrite, hlength⟩ :=
        Buffer.exists_write output pos (escapeByte c) (by omega)
      have hwhole := Buffer.write_write output pos (escapeByte c)
        (jsonEscapeFrom output.length (pos + (escapeByte c).length) p ++ [0])
      rw [hwrite, Option.bind_some] at hwhole
      rw [hwrite, Option.bind_some, ih (by omega), hlength, hwhole, List.append_assoc]

/-- The buffer of `json_escape_text` holds its text and a NUL. -/
theorem exists_jsonEscapeTextTo (input : Bytes) (h : 0 < output.length) :
    ∃ output', jsonEscapeTextTo output input = some output' ∧ output'.length = output.length ∧
      jsonEscapeText input output.length ++ [0] <+: output' := by
  have hlength := length_jsonEscapeText_lt input h
  obtain ⟨output', hwrite, hlength'⟩ :=
    Buffer.exists_write output 0 (jsonEscapeText input output.length ++ [0])
      (by rw [List.length_append, List.length_singleton]; omega)
  rw [jsonEscapeTextTo, if_neg (by omega), jsonEscapeTo_eq h]
  exact ⟨output', hwrite, hlength', Buffer.prefix_of_write hwrite⟩

theorem jsonEscapeFrom_of_room {outputSize pos : ℕ} {p : Bytes}
    (h : pos + (p.flatMap escapeByte).length < outputSize) :
    jsonEscapeFrom outputSize pos p = p.flatMap escapeByte := by
  induction p generalizing pos with
  | nil => rfl
  | cons c p ih =>
    rw [List.flatMap_cons, List.length_append] at h
    rw [jsonEscapeFrom, if_neg (by omega), ih (by omega), List.flatMap_cons]

/-- With room, the three escapers write texts of the string; and whatever the size of its buffer,
    `json_escape_text` writes the text of a beginning of it, with a NUL. -/
theorem escapers_denote (hs : 0 ∉ s) :
    (∀ w : JsonWriter, w.text.length + (s.flatMap jsonStringByte).length + 7 < w.size →
      ∃ text, (jsonWriteString w s).text = w.text ++ lit "\"" ++ text ++ lit "\"" ∧
        Denotes text s) ∧
    (∀ outputSize, (s.flatMap escapeByte).length < outputSize →
      Denotes (jsonEscapeText s outputSize) s) ∧
    (∀ out : Bytes, (s.flatMap escapeByte).length < out.length →
      ∃ out', escapeTo out 0 s = some out' ∧ Denotes (cstr out') s) ∧
    ∀ output : Bytes, 0 < output.length →
      ∃ output' s', jsonEscapeTextTo output s = some output' ∧ output'.length = output.length ∧
        (cstr output').length < output.length ∧ Denotes (cstr output') s' ∧ s' <+: s := by
  have hcstr := cstr_of_not_mem hs
  refine ⟨fun w hroom => ?_, fun outputSize hroom => ?_, fun out hroom => ?_, fun output hpos => ?_⟩
  · refine ⟨s.flatMap jsonStringByte, ?_, .of_isBody (isBody_jsonStringByte s)⟩
    rw [jsonWriteString_of_room (by rw [hcstr]; exact hroom), jsonString, hcstr]
    simp only [List.append_assoc]
  · rw [jsonEscapeText, hcstr, jsonEscapeFrom_of_room (by rw [Nat.zero_add]; exact hroom)]
    exact .of_isBody (isBody_flatMap s)
  · rw [escapeTo_eq]
    obtain ⟨out', hwrite, -⟩ := Buffer.exists_write out 0 (s.flatMap escapeByte ++ [0])
      (by rw [List.length_append, List.length_singleton]; omega)
    obtain ⟨rest, rfl⟩ := Buffer.prefix_of_write hwrite
    refine ⟨_, hwrite, ?_⟩
    rw [List.append_assoc, List.singleton_append, cstr_append_nul (not_mem_flatMap hs)]
    exact .of_isBody (isBody_flatMap s)
  · obtain ⟨output', hwrite, hlength, rest, rfl⟩ := exists_jsonEscapeTextTo s hpos
    obtain ⟨s', hprefix, hbody⟩ := exists_isBody_jsonEscapeText s output.length
    have hnul : 0 ∉ jsonEscapeText s output.length := fun hmem =>
      absurd (hbody.le_of_mem hmem) (by decide)
    refine ⟨_, s', hwrite, hlength, ?_⟩
    rw [List.append_assoc, List.singleton_append, cstr_append_nul hnul]
    rw [hcstr] at hprefix
    exact ⟨length_jsonEscapeText_lt s hpos, .of_isBody hbody, hprefix⟩

/-- A name with a quote and a line feed. -/
theorem escapers_denote_name :
    (∃ text, (jsonWriteString ⟨64, []⟩ (lit "a\"\nb")).text = lit "\"" ++ text ++ lit "\"" ∧
      Denotes text (lit "a\"\nb")) ∧
    Denotes (jsonEscapeText (lit "a\"\nb") 16) (lit "a\"\nb") := by
  obtain ⟨hwrite, hescape, -, -⟩ := escapers_denote (s := lit "a\"\nb") (by decide)
  exact ⟨hwrite ⟨64, []⟩ (by decide), hescape 16 (by decide)⟩

end PS5Torrent
