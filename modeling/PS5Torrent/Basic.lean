import Mathlib.Data.List.TakeWhile
import Mathlib.Tactic.NormNum

/-!
# Bytes and machine integers

The data the C code works on: byte strings, C strings (which end at the first
NUL), and the fixed-width integers of the PS5 (a 64-bit FreeBSD), read as
integers. Arithmetic on a fixed-width type is exact arithmetic followed by
the conversion to the type (`toInt32`, `toInt64`, `toUInt64`, `toSize`).

Memory allocation succeeds up to `PTRDIFF_MAX` bytes, the limit of every
allocator, except in the torrent manager, whose allocations may fail.
-/

namespace PS5Torrent

/-- A byte buffer. -/
abbrev Bytes := List UInt8

/-- A string literal of the source, in UTF-8. -/
def lit (s : String) : Bytes := s.toUTF8.data.toList

/-- A single character of the source. -/
def chr (c : Char) : UInt8 := UInt8.ofNat c.toNat

/-- `isspace` -/
def isSpace (c : UInt8) : Bool := c = 32 || (9 ≤ c && c ≤ 13)

/-- The C string at the start of a buffer, up to its first NUL. -/
def cstr (b : Bytes) : Bytes := b.takeWhile (· ≠ 0)

/-- What `snprintf` leaves of a text in a buffer of `size` bytes. -/
def snprintf (size : ℕ) (text : Bytes) : Bytes := text.take (size - 1)

/-- The conversion to `int`. -/
def toInt32 (x : ℤ) : ℤ := x.bmod (2 ^ 32)

/-- The conversion to `int64_t` (and `off_t`). -/
def toInt64 (x : ℤ) : ℤ := x.bmod (2 ^ 64)

/-- The conversion to `uint64_t`. -/
def toUInt64 (x : ℤ) : ℤ := x % 2 ^ 64

/-- The conversion of a natural number to `size_t`. -/
def toSize (n : ℕ) : ℕ := n % 2 ^ 64

/-- The buffer after `memcpy(buf + pos, src, len)` for the whole of `src`. -/
def memcpyAt (buf : Bytes) (pos : ℕ) (src : Bytes) : Bytes :=
  buf.take pos ++ src ++ buf.drop (pos + src.length)

def INT64_MAX : ℤ := 2 ^ 63 - 1

def INT64_MIN : ℤ := -2 ^ 63

/-- Arithmetic that allows no result below `0` or above `INT64_MAX`, the
    largest value of the signed types: where it succeeds, nothing overflows,
    signed or unsigned, and no difference is negative. -/
def checked (x : ℤ) : Option ℤ := if 0 ≤ x ∧ x ≤ INT64_MAX then some x else none

/-- `malloc` fails for requests above this. -/
def PTRDIFF_MAX : ℕ := 2 ^ 63 - 1

theorem toInt32_of_mem {x : ℤ} (hl : -2 ^ 31 ≤ x) (hu : x < 2 ^ 31) : toInt32 x = x := by
  rw [toInt32, Int.bmod_eq_of_le] <;> norm_num <;> omega

theorem toInt64_of_mem {x : ℤ} (hl : INT64_MIN ≤ x) (hu : x ≤ INT64_MAX) : toInt64 x = x := by
  simp only [INT64_MIN, INT64_MAX] at hl hu
  rw [toInt64, Int.bmod_eq_of_le] <;> norm_num <;> omega

theorem toInt64_mem (x : ℤ) : INT64_MIN ≤ toInt64 x ∧ toInt64 x ≤ INT64_MAX := by
  have hl := Int.le_bmod (x := x) (m := 2 ^ 64) (by norm_num)
  have hu := Int.bmod_lt (x := x) (m := 2 ^ 64) (by norm_num)
  simp only [INT64_MIN, INT64_MAX, toInt64]
  norm_num at hl hu ⊢
  omega

theorem toUInt64_of_mem {x : ℤ} (hl : 0 ≤ x) (hu : x ≤ INT64_MAX) : toUInt64 x = x := by
  simp only [INT64_MAX] at hu
  exact Int.emod_eq_of_lt hl (by omega)

theorem checked_of_mem {x : ℤ} (hl : 0 ≤ x) (hu : x ≤ INT64_MAX) : checked x = some x :=
  if_pos ⟨hl, hu⟩

theorem toSize_of_lt {n : ℕ} (h : n < 2 ^ 64) : toSize n = n := Nat.mod_eq_of_lt h

theorem length_memcpyAt {buf src : Bytes} {pos : ℕ} (h : pos + src.length ≤ buf.length) :
    (memcpyAt buf pos src).length = buf.length := by
  simp only [memcpyAt, List.length_append, List.length_take, List.length_drop]
  omega

theorem memcpyAt_nil (buf : Bytes) (pos : ℕ) : memcpyAt buf pos [] = buf := by
  rw [memcpyAt, List.append_nil, List.length_nil, Nat.add_zero, List.take_append_drop]

/-- Two copies, one after the other, are one. -/
theorem memcpyAt_memcpyAt {buf src src' : Bytes} {pos : ℕ} (h : pos ≤ buf.length) :
    memcpyAt (memcpyAt buf pos src) (pos + src.length) src' = memcpyAt buf pos (src ++ src') := by
  have hlen : (buf.take pos ++ src).length = pos + src.length := by
    rw [List.length_append, List.length_take]
    omega
  have htake : (memcpyAt buf pos src).take (pos + src.length) = buf.take pos ++ src := by
    rw [memcpyAt, ← hlen, List.take_left]
  have hdrop : (memcpyAt buf pos src).drop (pos + src.length + src'.length) =
      buf.drop (pos + src.length + src'.length) := by
    rw [memcpyAt, ← List.drop_drop, ← hlen, List.drop_left, List.drop_drop]
  rw [memcpyAt, htake, hdrop, memcpyAt, List.length_append, List.append_assoc, List.append_assoc,
    List.append_assoc, Nat.add_assoc, List.append_assoc]

/-- A copy over the whole buffer. -/
theorem memcpyAt_zero {buf src : Bytes} (h : buf.length = src.length) : memcpyAt buf 0 src = src := by
  rw [memcpyAt, List.take_zero, List.nil_append, Nat.zero_add, ← h, List.drop_length,
    List.append_nil]

theorem cstr_of_not_mem {b : Bytes} (h : 0 ∉ b) : cstr b = b := by
  refine List.takeWhile_eq_self_iff.2 fun x hx => ?_
  simpa using fun h0 : x = 0 => h (h0 ▸ hx)

theorem takeWhile_ne_append {x : Bytes} {b : UInt8} (hx : b ∉ x) (y : Bytes) :
    (x ++ b :: y).takeWhile (· ≠ b) = x := by
  rw [List.takeWhile_append_of_pos fun a ha => decide_eq_true (ne_of_mem_of_not_mem ha hx),
    List.takeWhile_cons_of_neg (by simp), List.append_nil]

theorem cstr_append_nul {b : Bytes} (h : 0 ∉ b) (rest : Bytes) : cstr (b ++ 0 :: rest) = b :=
  takeWhile_ne_append h rest

/-- What comes after the space in ASCII is no space. -/
theorem isSpace_of_lt {c : UInt8} (h : 32 < c.toNat) : isSpace c = false := by
  rw [isSpace, Bool.or_eq_false_iff, Bool.and_eq_false_iff, decide_eq_false_iff_not,
    decide_eq_false_iff_not, decide_eq_false_iff_not, UInt8.le_iff_toNat_le, UInt8.le_iff_toNat_le]
  refine ⟨?_, .inr ?_⟩
  · rintro rfl
    exact absurd h (by decide)
  · intro hle
    exact absurd (h.trans_le hle) (by decide)

@[simp]
theorem cstr_cstr (b : Bytes) : cstr (cstr b) = cstr b := List.takeWhile_idem

theorem length_cstr_le (b : Bytes) : (cstr b).length ≤ b.length := (List.takeWhile_sublist _).length_le

theorem not_mem_cstr (b : Bytes) : 0 ∉ cstr b := fun h => by
  simpa using List.mem_takeWhile_imp h

end PS5Torrent
