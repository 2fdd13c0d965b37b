import PS5Torrent.HttpServer.Request
import PS5Torrent.Library.Json
import Mathlib.Tactic.IntervalCases

/-!
# Strings in JSON texts

`escape` (`console_files.c`) writes all of a string, `json_escape_text`
(`main.c`) as much of it as fits a buffer, without breaking an escape apart.
-/

namespace PS5Torrent

open Json

/-- `hex[n]` -/
def hexChar (n : ℕ) : UInt8 := (lit "0123456789abcdef").getD n 0

/-- What is written for a character. -/
def escapeByte (c : UInt8) : Bytes :=
  if c = chr '"' ∨ c = chr '\\' then [chr '\\', c]
  else if c < 0x20 then
    lit "\\u00" ++ [hexChar (c.toNat / 16), hexChar (c.toNat % 16)]
  else [c]

def escape (s : Bytes) : Bytes := (cstr s).flatMap escapeByte

/-- The loop of `json_escape_text`: a character that does not fit ends it. -/
def jsonEscapeFrom (outputSize pos : ℕ) : Bytes → Bytes
  | [] => []
  | c :: p =>
    if pos + (escapeByte c).length ≥ outputSize then []
    else escapeByte c ++ jsonEscapeFrom outputSize (pos + (escapeByte c).length) p

def jsonEscapeText (input : Bytes) (outputSize : ℕ) : Bytes :=
  jsonEscapeFrom outputSize 0 (cstr input)

/-! ## What is written -/

theorem hexChar_eq {n : ℕ} (h : n < 16) : hexChar n = hexDigit n := by
  interval_cases n <;> decide

theorem isChar_escapeByte (c : UInt8) : IsChar c (escapeByte c) := by
  rw [escapeByte]
  split
  case isTrue hc =>
    rcases hc with rfl | rfl
    · exact .quote
    · exact .backslash
  case isFalse hc =>
    rw [not_or] at hc
    split
    case isTrue hcontrol =>
      have hlt := UInt8.lt_iff_toNat_lt.1 hcontrol
      rw [UInt8.toNat_ofNat] at hlt
      rw [hexChar_eq (by omega), hexChar_eq (by omega)]
      exact .control hcontrol
    case isFalse hcontrol => exact .plain ⟨UInt8.not_lt.1 hcontrol, hc⟩

theorem length_escapeByte_le (c : UInt8) : (escapeByte c).length ≤ 6 := by
  rw [escapeByte]
  split
  · exact Nat.le_of_ble_eq_true rfl
  · split
    · exact Nat.le_of_ble_eq_true rfl
    · exact Nat.le_of_ble_eq_true rfl

theorem isBody_flatMap (s : Bytes) : IsBody s (s.flatMap escapeByte) := by
  induction s with
  | nil => exact .nil
  | cons c s ih => exact .cons (isChar_escapeByte c) ih

theorem length_flatMap_le (s : Bytes) : (s.flatMap escapeByte).length ≤ 6 * s.length := by
  induction s with
  | nil => exact le_rfl
  | cons c s ih =>
    have hc := length_escapeByte_le c
    rw [List.flatMap_cons, List.length_append, List.length_cons]
    omega

/-- The text is that of the beginning of the string that fits. -/
theorem exists_isBody_jsonEscapeText (input : Bytes) (outputSize : ℕ) :
    ∃ s, s <+: cstr input ∧ IsBody s (jsonEscapeText input outputSize) := by
  rw [jsonEscapeText]
  generalize cstr input = p
  generalize 0 = pos
  induction p generalizing pos with
  | nil => exact ⟨[], List.prefix_rfl, .nil⟩
  | cons c p ih =>
    rw [jsonEscapeFrom]
    split
    · exact ⟨[], List.nil_prefix, .nil⟩
    · obtain ⟨s, hs, hbody⟩ := ih (pos + (escapeByte c).length)
      exact ⟨c :: s, List.cons_prefix_cons.2 ⟨rfl, hs⟩, .cons (isChar_escapeByte c) hbody⟩

theorem length_jsonEscapeText_lt (input : Bytes) {outputSize : ℕ} (h : 0 < outputSize) :
    (jsonEscapeText input outputSize).length < outputSize := by
  suffices hloop : ∀ pos < outputSize,
      pos + (jsonEscapeFrom outputSize pos (cstr input)).length < outputSize by
    have hzero := hloop 0 h
    rwa [Nat.zero_add] at hzero
  generalize cstr input = p
  induction p with
  | nil =>
    intro pos hpos
    exact hpos
  | cons c p ih =>
    intro pos hpos
    rw [jsonEscapeFrom]
    split
    · exact hpos
    case isFalse hfit =>
      have hrest := ih _ (not_le.1 hfit)
      rw [List.length_append]
      omega

end PS5Torrent
