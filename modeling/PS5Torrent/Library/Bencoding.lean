import PS5Torrent.Library.Decimal

/-!
# The bencoding grammar

Bencoded values as BitTorrent defines them: byte strings with their length,
integers, lists, and dictionaries whose keys are byte strings. A value has a
single *canonical* bencoding up to the order of dictionary entries: numerals
carry no leading zeros, and zero no sign. `Canonical lo hi` is the language of
the canonical bencodings whose integers lie between `lo` and `hi`.
-/

namespace Bencoding

open Decimal

/-- The delimiters, in ASCII. -/
def colon : UInt8 := 58
def minus : UInt8 := 45
def endMark : UInt8 := 101
def intMark : UInt8 := 105
def listMark : UInt8 := 108
def dictMark : UInt8 := 100

/-- A byte string: its length, a colon, and its bytes. -/
inductive CanonicalString : List UInt8 → Prop
  | mk {ds s : List UInt8} : IsCanonical ds → value ds = s.length →
      CanonicalString (ds ++ colon :: s)

/-- The canonical bencodings of the values with integers between `lo` and `hi`. -/
inductive Canonical (lo hi : ℤ) : List UInt8 → Prop
  | str {bs : List UInt8} : CanonicalString bs → Canonical lo hi bs
  | int {ds : List UInt8} : IsCanonical ds → (value ds : ℤ) ≤ hi →
      Canonical lo hi (intMark :: ds ++ [endMark])
  | negInt {ds : List UInt8} : IsCanonical ds → value ds ≠ 0 → lo ≤ -(value ds : ℤ) →
      Canonical lo hi (intMark :: minus :: ds ++ [endMark])
  | list {items : List (List UInt8)} : (∀ bs ∈ items, Canonical lo hi bs) →
      Canonical lo hi (listMark :: items.flatten ++ [endMark])
  | dict {entries : List (List UInt8 × List UInt8)} : (∀ e ∈ entries, CanonicalString e.1) →
      (∀ e ∈ entries, Canonical lo hi e.2) →
      Canonical lo hi (dictMark :: (entries.map fun e => e.1 ++ e.2).flatten ++ [endMark])

/-- A string, encoded with its printed length. -/
theorem canonicalString_print (s : List UInt8) :
    CanonicalString (print s.length ++ colon :: s) :=
  .mk (isCanonical_print _) (value_print _)

/-- The length of a canonical string is the printed one. -/
theorem CanonicalString.exists_print {bs : List UInt8} (h : CanonicalString bs) :
    ∃ s, bs = print s.length ++ colon :: s := by
  obtain ⟨hds, hlen⟩ := h
  exact ⟨_, by rw [← hlen, print_value hds]⟩

/-- An integer, printed with its sign. -/
theorem canonical_int {lo hi n : ℤ} (hl : lo ≤ n) (hu : n ≤ hi) :
    Canonical lo hi
      (intMark :: (if n < 0 then minus :: print n.natAbs else print n.natAbs) ++ [endMark]) := by
  split_ifs with hn
  · refine .negInt (isCanonical_print _) ?_ ?_ <;> rw [value_print] <;> omega
  · refine .int (isCanonical_print _) ?_
    rw [value_print]
    omega

end Bencoding
