import PS5Torrent.Library.Json
import Mathlib.Tactic.IntervalCases

/-!
# Reading JSON strings

`readString` reads a string literal after its opening quote, byte by byte: it
refuses control characters, undoes the escapes, with the UTF-8 bytes of a code
point for `\u`, and stops at the closing quote. What the grammar says a text
denotes is what is read (`readString_of_isBody`), so that a text denotes one
string only.
-/

namespace Json

/-- The value of a hexadecimal digit. -/
def hexValue (b : UInt8) : Option ℕ :=
  if Decimal.isDigit b then some (Decimal.digitVal b)
  else if 97 ≤ b.toNat ∧ b.toNat ≤ 102 then some (b.toNat - 87)
  else if 65 ≤ b.toNat ∧ b.toNat ≤ 70 then some (b.toNat - 55)
  else none

/-- The byte of an escape of two characters. -/
def escaped (c : UInt8) : Option UInt8 :=
  if c = code '"' ∨ c = code '\\' ∨ c = code '/' then some c
  else if c = code 'b' then some 8
  else if c = code 't' then some 9
  else if c = code 'n' then some 10
  else if c = code 'f' then some 12
  else if c = code 'r' then some 13
  else none

/-- The bytes of a code point below `0x10000`; a surrogate has none. -/
def utf8 (n : ℕ) : Option (List UInt8) :=
  if n < 0x80 then some [UInt8.ofNat n]
  else if n < 0x800 then some [UInt8.ofNat (0xc0 + n / 64), UInt8.ofNat (0x80 + n % 64)]
  else if 0xd800 ≤ n ∧ n < 0xe000 then none
  else
    some [UInt8.ofNat (0xe0 + n / 4096), UInt8.ofNat (0x80 + n / 64 % 64), UInt8.ofNat (0x80 + n % 64)]

/-- Where the reader is: between characters, after a backslash, or after some of the digits of
    a code point. -/
inductive Mode
  | text
  | escape
  | hex (count value : ℕ)

/-- Bytes are put before what is read. -/
def prepend (s : List UInt8) (r : Option (List UInt8 × List UInt8)) :
    Option (List UInt8 × List UInt8) :=
  r.map fun r => (s ++ r.1, r.2)

def readFrom : Mode → List UInt8 → Option (List UInt8 × List UInt8)
  | _, [] => none
  | .text, b :: rest =>
    if b = code '"' then some ([], rest)
    else if b = code '\\' then readFrom .escape rest
    else if b < 0x20 then none
    else prepend [b] (readFrom .text rest)
  | .escape, c :: rest =>
    if c = code 'u' then readFrom (.hex 0 0) rest
    else
      match escaped c with
      | none => none
      | some b => prepend [b] (readFrom .text rest)
  | .hex count value, c :: rest =>
    match hexValue c with
    | none => none
    | some d =>
      if count < 3 then readFrom (.hex (count + 1) (value * 16 + d)) rest
      else
        match utf8 (value * 16 + d) with
        | none => none
        | some bytes => prepend bytes (readFrom .text rest)

/-- The string of a literal, and what comes after it. -/
def readString (text : List UInt8) : Option (List UInt8 × List UInt8) := readFrom .text text

/-- The string that the inside of a literal denotes. -/
def decode (text : List UInt8) : Option (List UInt8) :=
  match readString (text ++ [code '"']) with
  | some (s, []) => some s
  | _ => none

variable {s text rest : List UInt8} {b : UInt8}

theorem prepend_append (s t : List UInt8) (r : Option (List UInt8 × List UInt8)) :
    prepend s (prepend t r) = prepend (s ++ t) r := by
  cases r with
  | none => rfl
  | some r => simp [prepend]

theorem hexValue_hexDigit {n : ℕ} (h : n < 16) : hexValue (hexDigit n) = some n := by
  interval_cases n <;> rfl

/-- A character is read as its byte. -/
theorem readFrom_of_isChar (h : IsChar b text) (rest : List UInt8) :
    readFrom .text (text ++ rest) = prepend [b] (readFrom .text rest) := by
  cases h with
  | plain hb =>
    obtain ⟨hcontrol, hquote, hbackslash⟩ := hb
    rw [List.singleton_append, readFrom, if_neg hquote, if_neg hbackslash,
      if_neg (UInt8.not_lt.2 hcontrol)]
  | quote => rfl
  | backslash => rfl
  | backspace => rfl
  | tab => rfl
  | newline => rfl
  | formFeed => rfl
  | carriageReturn => rfl
  | control hb =>
    have hlt : b.toNat < 32 := UInt8.lt_iff_toNat_lt.1 hb
    have hzero : hexValue (code '0') = some 0 := rfl
    have hvalue : ((0 * 16 + 0) * 16 + 0) * 16 + b.toNat / 16 = b.toNat / 16 := by omega
    have hbyte : b.toNat / 16 * 16 + b.toNat % 16 = b.toNat := by omega
    show readFrom (.hex 0 0) (code '0' :: code '0' :: hexDigit (b.toNat / 16) ::
      hexDigit (b.toNat % 16) :: rest) = _
    rw [readFrom, hzero]
    dsimp only
    rw [if_pos (by decide), readFrom, hzero]
    dsimp only
    rw [if_pos (by decide), readFrom, hexValue_hexDigit (by omega)]
    dsimp only
    rw [if_pos (by decide), readFrom, hexValue_hexDigit (by omega)]
    dsimp only
    rw [if_neg (by decide), hvalue, hbyte, utf8, if_pos (by omega), UInt8.ofNat_toNat]

/-- A text that denotes a string is read as this string. -/
theorem readFrom_of_isBody (h : IsBody s text) (rest : List UInt8) :
    readFrom .text (text ++ rest) = prepend s (readFrom .text rest) := by
  induction h with
  | nil =>
    rw [List.nil_append]
    cases readFrom .text rest with
    | none => rfl
    | some r => rfl
  | cons head _ ih =>
    rw [List.append_assoc, readFrom_of_isChar head, ih, prepend_append, List.singleton_append]

theorem readString_of_isBody (h : IsBody s text) (rest : List UInt8) :
    readString (text ++ code '"' :: rest) = some (s, rest) := by
  have hquote : readFrom .text (code '"' :: rest) = some ([], rest) := rfl
  rw [readString, readFrom_of_isBody h, hquote, prepend, Option.map_some, List.append_nil]

theorem decode_of_isBody (h : IsBody s text) : decode text = some s := by
  rw [decode, readString_of_isBody h]

/-- A text denotes one string only. -/
theorem IsBody.unique {s' : List UInt8} (h : IsBody s text) (h' : IsBody s' text) : s = s' :=
  Option.some.inj ((decode_of_isBody h).symm.trans (decode_of_isBody h'))

theorem le_hexDigit {n : ℕ} (h : n < 16) : 0x20 ≤ hexDigit n := by
  interval_cases n <;> decide

theorem IsChar.le_of_mem {c : UInt8} (h : IsChar c text) (hb : b ∈ text) : 0x20 ≤ b := by
  cases h with
  | plain hc =>
    obtain rfl := List.mem_singleton.1 hb
    exact hc.1
  | control hc =>
    have hlt : c.toNat < 32 := UInt8.lt_iff_toNat_lt.1 hc
    simp only [List.mem_cons, List.not_mem_nil, or_false] at hb
    rcases hb with rfl | rfl | rfl | rfl | rfl | rfl
    · decide
    · decide
    · decide
    · decide
    · exact le_hexDigit (by omega)
    · exact le_hexDigit (by omega)
  | quote | backslash | backspace | tab | newline | formFeed | carriageReturn =>
    simp only [List.mem_cons, List.not_mem_nil, or_false] at hb
    rcases hb with rfl | rfl <;> decide

/-- No control character is in a text. -/
theorem IsBody.le_of_mem (h : IsBody s text) (hb : b ∈ text) : 0x20 ≤ b := by
  induction h with
  | nil => exact absurd hb List.not_mem_nil
  | cons head _ ih =>
    rcases List.mem_append.1 hb with hb | hb
    · exact head.le_of_mem hb
    · exact ih hb

end Json
