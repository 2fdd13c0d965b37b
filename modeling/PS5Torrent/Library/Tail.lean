import Mathlib.Data.List.Basic

/-!
# The end of a stream

Two ways to keep the end of a stream that grows at its end, in bounded room.

* `last`: a window with the last elements. Adding to the window and cutting it
  gives the window of the longer stream (`last_append_last`).
* `Halves`: an older and a newer part. When the newer part would get too long,
  it takes the place of the older one, and a new one is begun (`Halves.append`).
  Together they stay a suffix of the stream (`Halves.IsEnd.append`).
-/

namespace Tail

variable {α : Type} {limit : ℕ} {xs ys stream chunk : List α}

/-! ## The last elements -/

/-- The last elements of a list, at most `limit` of them. -/
def last (limit : ℕ) (xs : List α) : List α := xs.drop (xs.length - limit)

theorem length_last (limit : ℕ) (xs : List α) : (last limit xs).length = min limit xs.length := by
  rw [last, List.length_drop]
  omega

theorem last_suffix (limit : ℕ) (xs : List α) : last limit xs <:+ xs := List.drop_suffix _ _

theorem last_nil (limit : ℕ) : last limit ([] : List α) = [] := List.drop_nil

theorem last_of_le (h : xs.length ≤ limit) : last limit xs = xs := by
  rw [last, Nat.sub_eq_zero_of_le h, List.drop_zero]

/-- A suffix is known by its length. -/
theorem eq_last (h : ys <:+ xs) (hlength : ys.length = min limit xs.length) : ys = last limit xs := by
  have hle : ys.length ≤ (last limit xs).length := by
    rw [length_last]
    exact Nat.le_of_eq hlength
  have hsuffix := List.suffix_of_suffix_length_le h (last_suffix limit xs) hle
  exact hsuffix.eq_of_length (by rw [length_last, hlength])

/-- Only the window of what comes first counts. -/
theorem last_append_last (limit : ℕ) (xs ys : List α) :
    last limit (last limit xs ++ ys) = last limit (xs ++ ys) := by
  refine eq_last ((last_suffix limit _).trans ?_) ?_
  · obtain ⟨before, hbefore⟩ := last_suffix limit xs
    exact ⟨before, by rw [← List.append_assoc, hbefore]⟩
  · rw [length_last, List.length_append, length_last, List.length_append]
    omega

/-! ## Two halves -/

/-- The older and the newer part of what is kept. -/
structure Halves (α : Type) where
  older : List α
  newer : List α

namespace Halves

/-- Something is added; a newer part that would get too long becomes the older one. -/
def append (limit : ℕ) (h : Halves α) (chunk : List α) : Halves α :=
  if h.newer.length + chunk.length > limit then ⟨h.newer, chunk⟩ else ⟨h.older, h.newer ++ chunk⟩

/-- The halves are the end of a stream, and neither is too long. -/
structure IsEnd (limit : ℕ) (h : Halves α) (stream : List α) : Prop where
  suffix : h.older ++ h.newer <:+ stream
  older_le : h.older.length ≤ limit
  newer_le : h.newer.length ≤ limit

theorem IsEnd.append {h : Halves α} (hend : h.IsEnd limit stream) (hchunk : chunk.length ≤ limit) :
    (h.append limit chunk).IsEnd limit (stream ++ chunk) := by
  obtain ⟨⟨before, hbefore⟩, hold, hnew⟩ := hend
  rw [Halves.append]
  split
  · refine ⟨⟨before ++ h.older, ?_⟩, hnew, hchunk⟩
    rw [← hbefore]
    simp only [List.append_assoc]
  case isFalse hfit =>
    refine ⟨⟨before, ?_⟩, hold, ?_⟩
    · rw [← hbefore]
      simp only [List.append_assoc]
    · show (h.newer ++ chunk).length ≤ limit
      rw [List.length_append]
      omega

end Halves

end Tail
