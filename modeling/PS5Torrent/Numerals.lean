import PS5Torrent.Basic
import PS5Torrent.Library.Decimal

/-!
# Numbers in strings

What `strtol` reads of a string in base 10, and what `%d` prints.
-/

namespace PS5Torrent

open Decimal

/-- `strtol(str, &end, 10)`: the value, in the range of `long`, and the string from `end` on. -/
def strtol (str : Bytes) : ℤ × Bytes :=
  let s := str.dropWhile isSpace
  let t := if s.head? = some (chr '-') ∨ s.head? = some (chr '+') then s.tail else s
  let digits := t.takeWhile isDigit
  if digits = [] then (0, str)
  else
    let n : ℤ := if s.head? = some (chr '-') then -(value digits : ℤ) else value digits
    (max INT64_MIN (min INT64_MAX n), t.dropWhile isDigit)

/-- A number as `%d` prints it. -/
def printInt (x : ℤ) : Bytes :=
  if x < 0 then chr '-' :: Decimal.print x.natAbs else Decimal.print x.natAbs

variable {ds rest : Bytes} {n : ℕ}

/-- A digit is neither a space nor a sign. -/
theorem not_isSpace_of_isDigit {b : UInt8} (hb : isDigit b) :
    isSpace b = false ∧ b ≠ chr '-' ∧ b ≠ chr '+' := by
  rw [isDigit_iff] at hb
  refine ⟨?_, ?_, ?_⟩
  · exact isSpace_of_lt (by omega)
  · rintro rfl
    exact absurd hb.1 (by decide)
  · rintro rfl
    exact absurd hb.1 (by decide)

/-- A string of digits is read up to the first character that is none. -/
theorem strtol_append (hne : ds ≠ []) (hds : ∀ b ∈ ds, isDigit b)
    (hrest : ∀ b ∈ rest.head?, ¬isDigit b) :
    strtol (ds ++ rest) = (min INT64_MAX (value ds), rest) := by
  obtain ⟨d, ds', rfl⟩ := List.exists_cons_of_ne_nil hne
  obtain ⟨hspace, hminus, hplus⟩ := not_isSpace_of_isDigit (hds d List.mem_cons_self)
  have hdrop : (d :: ds' ++ rest).dropWhile isSpace = d :: ds' ++ rest :=
    List.dropWhile_cons_of_neg (by rw [hspace]; exact Bool.false_ne_true)
  have htake : (d :: ds' ++ rest).takeWhile isDigit = d :: ds' := by
    rw [List.takeWhile_append_of_pos hds]
    cases rest with
    | nil => simp
    | cons b rest => rw [List.takeWhile_cons_of_neg (hrest b rfl), List.append_nil]
  have hend : (d :: ds' ++ rest).dropWhile isDigit = rest := by
    rw [List.dropWhile_append_of_pos hds]
    cases rest with
    | nil => rfl
    | cons b rest => exact List.dropWhile_cons_of_neg (hrest b rfl)
  have hhead : (d :: ds' ++ rest).head? = some d := rfl
  have hmin : INT64_MIN ≤ min INT64_MAX (value (d :: ds') : ℤ) :=
    le_min (by decide) ((by decide : INT64_MIN ≤ 0).trans (Int.natCast_nonneg _))
  have hminus' : some d ≠ some (chr '-') := fun h => hminus (Option.some.inj h)
  have hsign : ¬(some d = some (chr '-') ∨ some d = some (chr '+')) :=
    not_or.2 ⟨hminus', fun h => hplus (Option.some.inj h)⟩
  have hcons : d :: ds' ≠ [] := List.cons_ne_nil _ _
  simp only [strtol, hdrop, hhead, if_neg hsign, if_neg hminus', htake, hend, if_neg hcons,
    max_eq_right hmin]

/-- A printed number is read back. -/
theorem strtol_print (hn : (n : ℤ) ≤ INT64_MAX) : strtol (print n) = ((n : ℤ), []) := by
  have hread := @strtol_append (print n) [] (print_ne_nil n) (fun _ => isDigit_of_mem_print)
    (by simp)
  rwa [List.append_nil, value_print, min_eq_right hn] at hread

end PS5Torrent
