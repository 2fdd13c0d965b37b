import Mathlib.Data.List.Basic

/-!
# Pages of a list

A list is read in pages: `page` is the part of it that starts at an offset, and
`next` the offset after it, if there is more. Reading from the start and
following `next` gives the whole list (`flatten_of_follows`), and it ends
(`exists_follows`).

`collect` is how a page is made in one pass over a list with other elements in
between: it skips, takes up to the limit, and stops at the first element over
it. What it gives is the page, and whether there is a next one (`collect_eq`).
-/

namespace Paging

variable {α : Type} {p : α → Bool} {xs ys : List α} {size offset skip limit : ℕ}
  {fetch : ℕ → Option (List α × Option ℕ)} {pages : List (List α)}

/-- The page at an offset. -/
def page (size : ℕ) (xs : List α) (offset : ℕ) : List α := (xs.drop offset).take size

/-- The offset of the page after it, if there is one. -/
def next (size : ℕ) (xs : List α) (offset : ℕ) : Option ℕ :=
  if offset + size < xs.length then some (offset + size) else none

/-- A page is fetched, and then the pages after it, as long as there is a next one. -/
inductive Follows (fetch : ℕ → Option (List α × Option ℕ)) : ℕ → List (List α) → Prop
  | last {offset : ℕ} {xs : List α} (h : fetch offset = some (xs, none)) : Follows fetch offset [xs]
  | more {offset offset' : ℕ} {xs : List α} {pages : List (List α)}
    (h : fetch offset = some (xs, some offset')) (rest : Follows fetch offset' pages) :
    Follows fetch offset (xs :: pages)

/-- What is fetched are the pages of a list. -/
def Fetches (fetch : ℕ → Option (List α × Option ℕ)) (size : ℕ) (xs : List α) : Prop :=
  ∀ offset ≤ xs.length, fetch offset = some (page size xs offset, next size xs offset)

/-! ## Following the pages -/

theorem page_append_drop (size : ℕ) (xs : List α) (offset : ℕ) :
    page size xs offset ++ xs.drop (offset + size) = xs.drop offset := by
  rw [page, ← List.drop_drop, List.take_append_drop]

theorem page_of_next_eq_none (h : next size xs offset = none) :
    page size xs offset = xs.drop offset := by
  rw [next] at h
  split at h
  · cases h
  · rw [page, List.take_of_length_le]
    rw [List.length_drop]
    omega

theorem next_eq_some {offset' : ℕ} (h : next size xs offset = some offset') :
    offset' = offset + size ∧ offset' < xs.length := by
  rw [next] at h
  split at h
  · obtain rfl := Option.some.inj h
    exact ⟨rfl, ‹_›⟩
  · cases h

theorem length_page_le (size : ℕ) (xs : List α) (offset : ℕ) :
    (page size xs offset).length ≤ size := List.length_take_le _ _

/-- The pages that are read are all of the list from the offset on, in order. -/
theorem flatten_of_follows (hfetch : Fetches fetch size xs) (hoffset : offset ≤ xs.length)
    (h : Follows fetch offset pages) :
    pages.flatten = xs.drop offset ∧ ∀ page ∈ pages, page.length ≤ size := by
  induction h with
  | @last offset ys h =>
    rw [hfetch offset hoffset, Option.some.injEq, Prod.mk.injEq] at h
    obtain ⟨rfl, hnext⟩ := h
    rw [List.flatten_singleton, List.forall_mem_singleton]
    exact ⟨page_of_next_eq_none hnext, length_page_le size xs offset⟩
  | @more offset offset' ys pages h _ ih =>
    rw [hfetch offset hoffset, Option.some.injEq, Prod.mk.injEq] at h
    obtain ⟨rfl, hnext⟩ := h
    obtain ⟨rfl, hlt⟩ := next_eq_some hnext
    obtain ⟨hflatten, hlength⟩ := ih (Nat.le_of_lt hlt)
    rw [List.flatten_cons, hflatten, page_append_drop, List.forall_mem_cons]
    exact ⟨rfl, length_page_le size xs offset, hlength⟩

/-- Reading the pages ends. -/
theorem exists_follows (hfetch : Fetches fetch size xs) (hsize : 0 < size)
    (hoffset : offset ≤ xs.length) : ∃ pages, Follows fetch offset pages := by
  -- the rest of the list gets shorter with each page
  generalize hrest : xs.length - offset = rest
  induction rest using Nat.strongRecOn generalizing offset with
  | ind rest ih =>
    have hpage := hfetch offset hoffset
    rcases hnext : next size xs offset with _ | offset'
    · rw [hnext] at hpage
      exact ⟨_, .last hpage⟩
    · rw [hnext] at hpage
      obtain ⟨rfl, hlt⟩ := next_eq_some hnext
      obtain ⟨pages, hpages⟩ := ih (xs.length - (offset + size)) (by omega) (Nat.le_of_lt hlt) rfl
      exact ⟨_, .more hpage hpages⟩

/-! ## Making a page -/

/-- The elements with a property after the first `skip`, up to `limit`, and whether there are more
    of them. -/
def collect (p : α → Bool) : ℕ → ℕ → List α → List α × Bool
  | _, _, [] => ([], false)
  | skip, limit, x :: xs =>
    if !p x then collect p skip limit xs
    else if skip ≠ 0 then collect p (skip - 1) limit xs
    else if limit = 0 then ([], true)
    else (x :: (collect p 0 (limit - 1) xs).1, (collect p 0 (limit - 1) xs).2)

theorem collect_eq (p : α → Bool) (skip limit : ℕ) (xs : List α) :
    collect p skip limit xs =
      (page limit (xs.filter p) skip, decide (skip + limit < (xs.filter p).length)) := by
  induction xs generalizing skip limit with
  | nil => simp [collect, page]
  | cons x xs ih =>
    rw [collect]
    by_cases hx : p x
    · rw [List.filter_cons_of_pos hx, hx, if_neg (by simp)]
      rcases skip with _ | skip
      · rcases limit with _ | limit
        · simp [page]
        · simp [ih, page]
      · simp [ih, page, Nat.add_right_comm]
    · rw [List.filter_cons_of_neg hx, if_pos (by simp [hx])]
      exact ih skip limit

end Paging
