import Mathlib.Data.List.Flatten
import Mathlib.Data.Nat.Notation

/-!
# Records of one size

A text that consists of records of one size, one after the other: the record at
an index is read off the text by its position.
-/

namespace Records

variable {α β : Type} {f : α → List β} {k : ℕ}

theorem length_flatMap (hf : ∀ x, (f x).length = k) (xs : List α) :
    (xs.flatMap f).length = k * xs.length := by
  induction xs with
  | nil => rfl
  | cons x xs ih =>
    rw [List.flatMap_cons, List.length_append, hf, ih, List.length_cons, Nat.mul_succ, Nat.add_comm]

/-- The record at an index. -/
theorem take_drop_flatMap (hf : ∀ x, (f x).length = k) {xs : List α} {i : ℕ} {x : α}
    (hi : xs[i]? = some x) : ((xs.flatMap f).drop (k * i)).take k = f x := by
  induction xs generalizing i with
  | nil => simp at hi
  | cons y xs ih =>
    rw [List.flatMap_cons]
    cases i with
    | zero =>
      rw [List.getElem?_cons_zero, Option.some.injEq] at hi
      subst hi
      rw [Nat.mul_zero, List.drop_zero]
      exact List.take_left' (hf y)
    | succ i =>
      rw [List.getElem?_cons_succ] at hi
      rw [← ih hi, Nat.mul_succ, Nat.add_comm, ← hf y, List.drop_length_add_append]

end Records
