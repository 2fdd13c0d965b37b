import Mathlib.Data.Nat.Digits.Lemmas

/-!
# Decimal numerals

Natural numbers written in ASCII decimal digits, the most significant first:
`print` writes a number, `value` reads a string of digits. A numeral is
*canonical* if it has no superfluous leading zero. The canonical numerals are
exactly the printed ones: reading inverts printing (`value_print`), and
printing inverts reading on canonical numerals only (`print_value`).
-/

namespace Decimal

/-- The ASCII character of a digit. -/
def digit (d : ℕ) : UInt8 := UInt8.ofNat (48 + d)

/-- An ASCII decimal digit. -/
def isDigit (b : UInt8) : Bool := 48 ≤ b.toNat && b.toNat ≤ 57

/-- The digit an ASCII character stands for. -/
def digitVal (b : UInt8) : ℕ := b.toNat - 48

/-- The number a string of digits denotes. -/
def value (ds : List UInt8) : ℕ := ds.foldl (fun n b => n * 10 + digitVal b) 0

/-- The numeral of a number. -/
def print (n : ℕ) : List UInt8 :=
  if n = 0 then [digit 0] else ((Nat.digits 10 n).map digit).reverse

/-- A nonempty string of digits without a superfluous leading zero. -/
structure IsCanonical (ds : List UInt8) : Prop where
  ne_nil : ds ≠ []
  isDigit : ∀ b ∈ ds, isDigit b
  leading : ds.head? = some (digit 0) → ds = [digit 0]

theorem isDigit_iff {b : UInt8} : isDigit b ↔ 48 ≤ b.toNat ∧ b.toNat ≤ 57 := by
  simp [isDigit]

theorem toNat_digit {d : ℕ} (h : d < 10) : (digit d).toNat = 48 + d := by
  rw [digit, UInt8.toNat_ofNat']
  omega

@[simp]
theorem digitVal_digit {d : ℕ} (h : d < 10) : digitVal (digit d) = d := by
  rw [digitVal, toNat_digit h]
  omega

@[simp]
theorem isDigit_digit {d : ℕ} (h : d < 10) : isDigit (digit d) := by
  rw [isDigit_iff, toNat_digit h]
  omega

theorem digitVal_lt {b : UInt8} (h : isDigit b) : digitVal b < 10 := by
  rw [isDigit_iff] at h
  rw [digitVal]
  omega

theorem digit_digitVal {b : UInt8} (h : isDigit b) : digit (digitVal b) = b := by
  have hb := isDigit_iff.1 h
  apply UInt8.toNat_inj.1
  rw [toNat_digit (digitVal_lt h), digitVal]
  omega

/-! ## Reading -/

@[simp]
theorem value_nil : value [] = 0 := rfl

theorem value_append_singleton (ds : List UInt8) (b : UInt8) :
    value (ds ++ [b]) = value ds * 10 + digitVal b := by
  simp [value]

/-- Reading a numeral is reading its digits in positional notation. -/
theorem value_eq_ofDigits (ds : List UInt8) :
    value ds = Nat.ofDigits 10 (ds.reverse.map digitVal) := by
  induction ds using List.reverseRecOn with
  | nil => rfl
  | append_singleton ds b ih =>
    rw [value_append_singleton, ih, List.reverse_append, List.map_append, List.reverse_singleton,
      List.map_singleton, List.singleton_append, Nat.ofDigits_cons]
    omega

/-! ## Printing -/

theorem print_of_pos {n : ℕ} (h : n ≠ 0) : print n = ((Nat.digits 10 n).map digit).reverse :=
  if_neg h

/-- Reading a printed number gives it back. -/
@[simp]
theorem value_print (n : ℕ) : value (print n) = n := by
  by_cases h : n = 0
  · subst h; rfl
  · rw [print_of_pos h, value_eq_ofDigits, List.reverse_reverse, List.map_map]
    have hid : (Nat.digits 10 n).map (digitVal ∘ digit) = Nat.digits 10 n :=
      (List.map_congr_left fun d hd =>
        digitVal_digit (Nat.digits_lt_base (by omega) hd)).trans (List.map_id _)
    rw [hid, Nat.ofDigits_digits]

theorem print_ne_nil (n : ℕ) : print n ≠ [] := by
  by_cases h : n = 0
  · subst h; simp [print]
  · simp [print_of_pos h, Nat.digits_ne_nil_iff_ne_zero.2 h]

/-- A number below `10 ^ k` has at most `k` digits. -/
theorem length_print_le {n k : ℕ} (hk : 0 < k) (h : n < 10 ^ k) : (print n).length ≤ k := by
  by_cases hn : n = 0
  · subst hn
    exact hk
  · rw [print_of_pos hn, List.length_reverse, List.length_map]
    exact (Nat.digits_length_le_iff (by omega) n).2 h

theorem isDigit_of_mem_print {n : ℕ} {b : UInt8} (hb : b ∈ print n) : isDigit b := by
  by_cases h : n = 0
  · subst h
    rw [List.mem_singleton.1 hb]
    decide
  · rw [print_of_pos h, List.mem_reverse, List.mem_map] at hb
    obtain ⟨d, hd, rfl⟩ := hb
    exact isDigit_digit (Nat.digits_lt_base (by omega) hd)

/-- A printed positive number starts with its leading digit, which is not zero. -/
theorem head?_print_ne {n : ℕ} (h : n ≠ 0) : (print n).head? ≠ some (digit 0) := by
  rw [print_of_pos h, List.head?_reverse, List.getLast?_map]
  have hne : Nat.digits 10 n ≠ [] := Nat.digits_ne_nil_iff_ne_zero.2 h
  rw [List.getLast?_eq_getLast_of_ne_nil hne]
  intro hz
  have hlast := Nat.getLast_digit_ne_zero 10 h
  have hlt := Nat.digits_lt_base (by omega : 1 < 10) (List.getLast_mem hne)
  apply hlast
  rw [← digitVal_digit hlt, Option.some.inj hz]
  rfl

theorem isCanonical_print (n : ℕ) : IsCanonical (print n) where
  ne_nil := print_ne_nil n
  isDigit _ := isDigit_of_mem_print
  leading h := by
    by_cases hn : n = 0
    · subst hn; rfl
    · exact absurd h (head?_print_ne hn)

/-- A canonical numeral is the one printed for its value. -/
theorem print_value {ds : List UInt8} (h : IsCanonical ds) : print (value ds) = ds := by
  by_cases hz : ds.head? = some (digit 0)
  · rw [h.leading hz]; rfl
  have hlt : ∀ d ∈ ds.reverse.map digitVal, d < 10 := by
    intro d hd
    obtain ⟨b, hb, rfl⟩ := List.mem_map.1 hd
    exact digitVal_lt (h.isDigit b (List.mem_reverse.1 hb))
  have hlast : ∀ hne : ds.reverse.map digitVal ≠ [], (ds.reverse.map digitVal).getLast hne ≠ 0 := by
    intro hne h0
    rw [List.getLast_map, List.getLast_reverse] at h0
    apply hz
    rw [List.head?_eq_some_head h.ne_nil, ← digit_digitVal (h.isDigit _ (List.head_mem h.ne_nil)), h0]
  have hdigits : Nat.digits 10 (value ds) = ds.reverse.map digitVal := by
    rw [value_eq_ofDigits, Nat.digits_ofDigits 10 (by omega) _ hlt hlast]
  have hne : value ds ≠ 0 := by
    rw [← Nat.digits_ne_nil_iff_ne_zero (b := 10), hdigits]
    simpa using h.ne_nil
  have hid : ds.reverse.map (digit ∘ digitVal) = ds.reverse :=
    (List.map_congr_left fun b hb =>
      digit_digitVal (h.isDigit b (List.mem_reverse.1 hb))).trans (List.map_id _)
  rw [print_of_pos hne, hdigits, List.map_map, hid, List.reverse_reverse]

end Decimal
