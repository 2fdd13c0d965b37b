import Mathlib.Data.List.Infix
import Mathlib.Data.Nat.Notation

/-!
# The first occurrence of a word

`search w l` is the position of the first occurrence of a word in a list. Where
a list is put together from parts, the search goes through the parts in order:

* past a separator, an element that does not occur in the word
  (`search_append_cons`);
* up to the word itself, if no occurrence can overlap it: the word has no
  border (`search_append_self`), or an element of it occurs nowhere before
  (`search_of_not_mem`).
-/

namespace Search

variable {α : Type} [DecidableEq α]

def search (w : List α) : List α → Option ℕ
  | [] => if w = [] then some 0 else none
  | a :: l => if w <+: a :: l then some 0 else (search w l).map (· + 1)

variable {w l x y : List α} {a c : α} {i : ℕ}

theorem search_nil (hw : w ≠ []) : search w [] = none := if_neg hw

theorem search_eq_zero (h : w <+: l) : search w l = some 0 := by
  cases l with
  | nil => exact if_pos (List.prefix_nil.1 h)
  | cons a l => exact if_pos h

theorem search_cons (h : ¬ w <+: a :: l) : search w (a :: l) = (search w l).map (· + 1) := if_neg h

/-! ## What a search finds -/

theorem prefix_of_search (h : search w l = some i) : w <+: l.drop i := by
  induction l generalizing i with
  | nil =>
    rw [search] at h
    split_ifs at h with hw
    rw [hw]
    exact List.nil_prefix
  | cons a l ih =>
    by_cases hw : w <+: a :: l
    · rw [search_eq_zero hw] at h
      obtain rfl := Option.some.inj h
      exact hw
    · rw [search_cons hw] at h
      obtain ⟨j, hj, rfl⟩ := Option.map_eq_some_iff.1 h
      exact ih hj

theorem infix_iff_search : w <:+: l ↔ (search w l).isSome := by
  induction l with
  | nil =>
    rw [List.infix_nil, search]
    split_ifs with hw
    · exact iff_of_true hw rfl
    · exact iff_of_false hw Bool.false_ne_true
  | cons a l ih =>
    rw [List.infix_cons_iff]
    by_cases hw : w <+: a :: l
    · rw [search_eq_zero hw]
      exact iff_of_true (Or.inl hw) rfl
    · rw [search_cons hw, Option.isSome_map, or_iff_right hw, ih]

theorem search_eq_none : search w l = none ↔ ¬ w <:+: l := by
  rw [infix_iff_search, Bool.not_eq_true, Option.isSome_eq_false_iff, Option.isNone_iff_eq_none]

/-- Before the first occurrence there is none. -/
theorem search_le {k : ℕ} (h : search w l = some i) (hk : w <+: l.drop k) : i ≤ k := by
  induction l generalizing i k with
  | nil =>
    rw [search] at h
    split_ifs at h
    obtain rfl := Option.some.inj h
    exact Nat.zero_le k
  | cons a l ih =>
    by_cases hpre : w <+: a :: l
    · rw [search_eq_zero hpre] at h
      obtain rfl := Option.some.inj h
      exact Nat.zero_le k
    · rw [search_cons hpre] at h
      obtain ⟨j, hj, rfl⟩ := Option.map_eq_some_iff.1 h
      rcases k with _ | k
      · exact absurd hk hpre
      · exact Nat.succ_le_succ (ih hj hk)

theorem not_infix_take (hw : w ≠ []) (h : search w l = some i) : ¬ w <:+: l.take i := by
  rintro ⟨x, y, hxy⟩
  have hdrop : (l.take i).drop x.length = w ++ y := by
    rw [← hxy, List.append_assoc, List.drop_left]
  have hle : i ≤ x.length := search_le h (by
    refine List.IsPrefix.trans ⟨y, hdrop.symm⟩ ?_
    rw [List.drop_take]
    exact List.take_prefix _ _)
  have hlen := congrArg List.length hxy
  have hpos := List.length_pos_iff.2 hw
  rw [List.length_append, List.length_append, List.length_take] at hlen
  omega

theorem add_length_le (hw : w ≠ []) (h : search w l = some i) : i + w.length ≤ l.length := by
  have hlen := (prefix_of_search h).length_le
  have hpos := List.length_pos_iff.2 hw
  rw [List.length_drop] at hlen
  omega

/-- The first occurrence in the start of a list is the first one in the list. -/
theorem search_of_isPrefix (hw : w ≠ []) (hx : x <+: l) (h : search w x = some i) :
    search w l = some i := by
  have hfound : w <+: l.drop i := (prefix_of_search h).trans (hx.drop i)
  have hinfix : w <:+: l := hfound.isInfix.trans (List.drop_suffix i l).isInfix
  obtain ⟨j, hj⟩ := Option.isSome_iff_exists.1 (infix_iff_search.1 hinfix)
  have hle := search_le hj hfound
  have hend := add_length_le hw h
  have hstart : w <+: x.drop j := by
    refine List.prefix_of_prefix_length_le (prefix_of_search hj) (hx.drop j) ?_
    rw [List.length_drop]
    omega
  rw [hj, le_antisymm hle (search_le h hstart)]

theorem search_eq_none_of_count (h : l.count c < w.count c) : search w l = none :=
  search_eq_none.2 fun hsub => absurd (hsub.sublist.count_le c) (not_le.2 h)

theorem search_eq_none_of_not_mem (hc : c ∈ w) (h : c ∉ l) : search w l = none :=
  search_eq_none.2 fun hsub => h (hsub.subset hc)

/-! ## Separators -/

omit [DecidableEq α] in
theorem prefix_append_cons_iff (hc : c ∉ w) : w <+: x ++ c :: y ↔ w <+: x := by
  refine ⟨fun h => ?_, fun h => h.trans (List.prefix_append _ _)⟩
  rcases List.prefix_or_prefix_of_prefix h (List.prefix_append x (c :: y)) with h' | ⟨z, rfl⟩
  · exact h'
  · rcases z with _ | ⟨d, z⟩
    · rw [List.append_nil]
    · rw [List.prefix_append_right_inj, List.cons_prefix_cons] at h
      exact absurd (h.1 ▸ List.mem_append_right x List.mem_cons_self) hc

/-- An occurrence is on one side of a separator. -/
theorem search_append_cons (hw : w ≠ []) (hc : c ∉ w) :
    search w (x ++ c :: y) =
      ((search w x).or ((search w y).map (· + (x.length + 1)))) := by
  induction x with
  | nil =>
    have hpre : ¬ w <+: c :: y := fun h => hw (List.prefix_nil.1 ((prefix_append_cons_iff hc).1 h))
    rw [List.nil_append, search_cons hpre, search_nil hw, Option.none_or]
    rfl
  | cons a x ih =>
    by_cases hpre : w <+: a :: x
    · rw [search_eq_zero hpre, search_eq_zero (hpre.trans (List.prefix_append _ _)), Option.some_or]
    · have hpre' : ¬ w <+: a :: (x ++ c :: y) := fun h =>
        hpre ((prefix_append_cons_iff (x := a :: x) hc).1 h)
      rw [List.cons_append, search_cons hpre', search_cons hpre, ih]
      cases search w x with
      | some i => rfl
      | none =>
        cases search w y with
        | none => rfl
        | some i =>
          simp only [Option.none_or, Option.map_some, Option.map_none, List.length_cons, Nat.add_assoc]

/-! ## The word itself -/

/-- No proper end of the word is a start of it. -/
def Unbordered (w : List α) : Prop := ∀ k, k < w.length → 0 < k → ¬ w.drop k <+: w

instance (w : List α) : Decidable (Unbordered w) :=
  inferInstanceAs (Decidable (∀ k, k < w.length → 0 < k → ¬ w.drop k <+: w))

omit [DecidableEq α] in
/-- An occurrence that starts before the word does not overlap it. -/
theorem prefix_append_self_iff (hw : Unbordered w) (hx : x ≠ []) : w <+: x ++ (w ++ y) ↔ w <+: x := by
  refine ⟨fun h => ?_, fun h => h.trans (List.prefix_append _ _)⟩
  rcases List.prefix_or_prefix_of_prefix h (List.prefix_append x (w ++ y)) with h' | ⟨z, hz⟩
  · exact h'
  · rcases z with _ | ⟨d, z⟩
    · rw [List.append_nil] at hz
      rw [hz]
    · have hlen := congrArg List.length hz
      rw [List.length_append, List.length_cons] at hlen
      have hdrop : w.drop x.length = d :: z := by rw [← hz, List.drop_left]
      have hborder : w.drop x.length <+: w := by
        rw [hdrop]
        have h' := h
        rw [← hz, List.prefix_append_right_inj, hz] at h'
        exact List.prefix_of_prefix_length_le h' (List.prefix_append w y) (by
          rw [← hdrop, List.length_drop]
          exact Nat.sub_le _ _)
      exact absurd hborder (hw x.length (by omega) (List.length_pos_iff.2 hx))

theorem search_append_self (hw : w ≠ []) (hb : Unbordered w) :
    search w (x ++ (w ++ y)) = some ((search w x).getD x.length) := by
  induction x with
  | nil =>
    rw [List.nil_append, search_eq_zero (List.prefix_append w y), search_nil hw]
    rfl
  | cons a x ih =>
    by_cases hpre : w <+: a :: x
    · rw [search_eq_zero hpre, search_eq_zero (hpre.trans (List.prefix_append _ _))]
      rfl
    · have hpre' : ¬ w <+: a :: (x ++ (w ++ y)) :=
        fun h => hpre ((prefix_append_self_iff hb (List.cons_ne_nil a x)).1 h)
      rw [List.cons_append, search_cons hpre', search_cons hpre, ih]
      cases search w x <;> rfl

/-- The word is found where an element of it occurs nowhere before. -/
theorem search_of_not_mem {k : ℕ} (hk : w[k]? = some c) (hc : c ∉ x ++ w.take k) :
    search w (x ++ (w ++ y)) = some x.length := by
  induction x with
  | nil => exact search_eq_zero (List.prefix_append w y)
  | cons a x ih =>
    have hpre : ¬ w <+: a :: (x ++ (w ++ y)) := by
      rintro ⟨z, hz⟩
      -- the element would be at position `k` of the list, before the word or in its start
      have hlen := (List.getElem?_eq_some_iff.1 hk).1
      have hget : (a :: (x ++ (w ++ y)))[k]? = some c := by
        rw [← hz, List.getElem?_append_left hlen, hk]
      rw [← List.cons_append, ← List.take_append_drop k w, List.append_assoc, ← List.append_assoc,
        List.getElem?_append_left (by
          rw [List.length_append, List.length_cons, List.length_take]
          omega)] at hget
      exact hc (List.mem_of_getElem? hget)
    rw [List.cons_append, search_cons hpre, ih fun h => hc (List.mem_cons_of_mem a h)]
    rfl

/-- A part without the first element of the word is passed over. -/
theorem search_skip (hc : w.head? = some c) (hx : c ∉ x) :
    search w (x ++ y) = (search w y).map (· + x.length) := by
  induction x with
  | nil => exact (Option.map_id' (x := search w y)).symm
  | cons a x ih =>
    have hpre : ¬ w <+: a :: (x ++ y) := by
      rintro ⟨z, hz⟩
      obtain ⟨v, rfl⟩ := List.head?_eq_some_iff.1 hc
      rw [List.cons_append] at hz
      exact hx (List.mem_cons.2 (.inl (List.cons.inj hz).1))
    rw [List.cons_append, search_cons hpre, ih fun h => hx (List.mem_cons_of_mem a h),
      Option.map_map]
    rfl

/-! ## The rest of a list -/

/-- The list from the first occurrence on. -/
def searchFrom (w l : List α) : Option (List α) := (search w l).map l.drop

theorem searchFrom_eq_some_of_search (h : search w l = some i) : searchFrom w l = some (l.drop i) := by
  rw [searchFrom, h, Option.map_some]

/-- A part without an occurrence is skipped. -/
theorem searchFrom_skip (hw : w ≠ []) (hc : c ∉ w) (hx : search w x = none) :
    searchFrom w (x ++ c :: y) = searchFrom w y := by
  rw [searchFrom, search_append_cons hw hc, hx, Option.none_or, Option.map_map, searchFrom]
  congr 1
  funext i
  have hlen : i + (x.length + 1) = (x ++ [c]).length + i := by
    rw [List.length_append, List.length_singleton, Nat.add_comm]
  rw [Function.comp_apply, hlen, ← List.drop_drop, List.append_cons x c y, List.drop_left]

/-- An occurrence before a separator is the first. -/
theorem searchFrom_left (hw : w ≠ []) (hc : c ∉ w) (hx : search w x = some i) :
    searchFrom w (x ++ c :: y) = some (x.drop i ++ c :: y) := by
  have hi := add_length_le hw hx
  rw [searchFrom, search_append_cons hw hc, hx, Option.some_or, Option.map_some,
    List.drop_append_of_le_length (by omega)]

theorem searchFrom_of_not_mem {k : ℕ} (hk : w[k]? = some c) (hc : c ∉ x ++ w.take k) :
    searchFrom w (x ++ (w ++ y)) = some (w ++ y) := by
  rw [searchFrom, search_of_not_mem hk hc, Option.map_some, List.drop_left]

end Search
