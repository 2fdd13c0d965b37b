import PS5Torrent.HttpServer.Escape
import PS5Torrent.Library.JsonReader

/-!
# The JSON writer of the torrent manager

`json_writef` prints into a buffer as long as there is room, and `json_write_string`
writes a string literal, character by character, and stops when the end of the
buffer is near. With room, a literal is written whole (`jsonWriteString_of_room`).
-/

namespace PS5Torrent

open Json

/-- `json_writer_t`: the size of the buffer, and what is in it up to `pos`, where a NUL follows. -/
structure JsonWriter where
  size : ℕ
  text : Bytes

/-- `json_writef`, of what is printed: what does not fit is cut off, and then there is no room left
    but for the NUL. -/
def jsonWritef (w : JsonWriter) (s : Bytes) : JsonWriter :=
  if w.text.length ≥ w.size then w
  else { w with text := w.text ++ s.take (w.size - w.text.length - 1) }

/-- What `json_write_string` writes for a character. -/
def jsonStringByte (c : UInt8) : Bytes :=
  if c = chr '"' ∨ c = chr '\\' then [chr '\\', c]
  else if c = 8 then lit "\\b"
  else if c = 12 then lit "\\f"
  else if c = 10 then lit "\\n"
  else if c = 13 then lit "\\r"
  else if c = 9 then lit "\\t"
  else if c < 0x20 then lit "\\u00" ++ [hexChar (c.toNat / 16), hexChar (c.toNat % 16)]
  else [c]

/-- The loop of `json_write_string`. -/
def jsonWriteChars (w : JsonWriter) : Bytes → JsonWriter
  | [] => w
  | c :: p =>
    if w.text.length + 7 < w.size then jsonWriteChars (jsonWritef w (jsonStringByte c)) p else w

def jsonWriteString (w : JsonWriter) (value : Bytes) : JsonWriter :=
  jsonWritef (jsonWriteChars (jsonWritef w (lit "\"")) (cstr value)) (lit "\"")

/-- The string literal of a value. -/
def jsonString (value : Bytes) : Bytes :=
  lit "\"" ++ (cstr value).flatMap jsonStringByte ++ lit "\""

variable {w : JsonWriter} {s p : Bytes}

/-! ## Characters -/

theorem isChar_jsonStringByte (c : UInt8) : IsChar c (jsonStringByte c) := by
  rw [jsonStringByte]
  split_ifs with hquote hb hf hn hr ht hcontrol
  · rcases hquote with rfl | rfl
    · exact .quote
    · exact .backslash
  · subst hb
    exact .backspace
  · subst hf
    exact .formFeed
  · subst hn
    exact .newline
  · subst hr
    exact .carriageReturn
  · subst ht
    exact .tab
  · have hlt : c.toNat < 32 := UInt8.lt_iff_toNat_lt.1 hcontrol
    rw [hexChar_eq (by omega), hexChar_eq (by omega)]
    exact .control hcontrol
  · rw [not_or] at hquote
    exact .plain ⟨UInt8.not_lt.1 hcontrol, hquote⟩

theorem isBody_jsonStringByte (s : Bytes) : IsBody s (s.flatMap jsonStringByte) := by
  induction s with
  | nil => exact .nil
  | cons c s ih => exact .cons (isChar_jsonStringByte c) ih

theorem length_jsonStringByte_le (c : UInt8) :
    1 ≤ (jsonStringByte c).length ∧ (jsonStringByte c).length ≤ 6 := by
  rw [jsonStringByte]
  split_ifs
  all_goals exact ⟨Nat.le_of_ble_eq_true rfl, Nat.le_of_ble_eq_true rfl⟩

/-! ## Writing with room -/

theorem size_jsonWritef (w : JsonWriter) (s : Bytes) : (jsonWritef w s).size = w.size := by
  rw [jsonWritef]
  split
  · rfl
  · rfl

/-- What fits is written whole. -/
theorem jsonWritef_of_lt (h : w.text.length + s.length < w.size) :
    jsonWritef w s = { w with text := w.text ++ s } := by
  rw [jsonWritef, if_neg (by omega), List.take_of_length_le (by omega)]

theorem jsonWriteChars_of_room (h : w.text.length + (p.flatMap jsonStringByte).length + 6 < w.size) :
    jsonWriteChars w p = { w with text := w.text ++ p.flatMap jsonStringByte } := by
  induction p generalizing w with
  | nil =>
    rw [jsonWriteChars, List.flatMap_nil, List.append_nil]
  | cons c p ih =>
    obtain ⟨hpos, -⟩ := length_jsonStringByte_le c
    rw [List.flatMap_cons, List.length_append] at h
    have hwrite := @jsonWritef_of_lt w (jsonStringByte c) (by omega)
    have hrest : jsonWriteChars { w with text := w.text ++ jsonStringByte c } p =
        { w with text := w.text ++ jsonStringByte c ++ p.flatMap jsonStringByte } :=
      ih (by simp only [List.length_append]; omega)
    rw [jsonWriteChars, if_pos (by omega), hwrite, hrest, List.flatMap_cons, List.append_assoc]

/-- A literal that has room is written whole. -/
theorem jsonWriteString_of_room
    (h : w.text.length + ((cstr s).flatMap jsonStringByte).length + 7 < w.size) :
    jsonWriteString w s = { w with text := w.text ++ jsonString s } := by
  have hquote : (lit "\"").length = 1 := rfl
  have hopen : jsonWritef w (lit "\"") = ⟨w.size, w.text ++ lit "\""⟩ := jsonWritef_of_lt (by omega)
  have hchars : jsonWriteChars ⟨w.size, w.text ++ lit "\""⟩ (cstr s) =
      ⟨w.size, w.text ++ lit "\"" ++ (cstr s).flatMap jsonStringByte⟩ :=
    jsonWriteChars_of_room (by simp only [List.length_append]; omega)
  have hclose : jsonWritef ⟨w.size, w.text ++ lit "\"" ++ (cstr s).flatMap jsonStringByte⟩ (lit "\"") =
      ⟨w.size, w.text ++ lit "\"" ++ (cstr s).flatMap jsonStringByte ++ lit "\""⟩ :=
    jsonWritef_of_lt (by simp only [List.length_append]; omega)
  rw [jsonWriteString, hopen, hchars, hclose]
  simp only [jsonString, List.append_assoc]

end PS5Torrent
