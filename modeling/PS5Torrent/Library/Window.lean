import Mathlib.Data.List.Infix

/-!
# Searching a stream

A word is searched for in a stream that comes in blocks. Each block is searched
together with the end of what came before, one element shorter than the word:
however the stream is cut into blocks, the word is found exactly if it occurs in
the stream (`scan_iff`).
-/

namespace Window

variable {α : Type} [DecidableEq α]

/-- The end of a list that is carried over to the next block. -/
def tail (w l : List α) : List α := l.drop (l.length - (w.length - 1))

/-- Whether the word occurs in a list, at one of the positions where there is room for it. -/
def hit (w l : List α) : Bool :=
  (List.range (l.length + 1 - w.length)).any fun i => (l.drop i).take w.length = w

/-- Whether the word is found in the blocks; no block is empty before the stream ends. -/
def scan (w : List α) (carry : List α) : List (List α) → Bool
  | [] => false
  | block :: blocks =>
    if block = [] then false
    else hit w (carry ++ block) || scan w (tail w (carry ++ block)) blocks

variable {w l x y carry : List α} {blocks : List (List α)}

omit [DecidableEq α] in
theorem infix_iff_drop : w <:+: l ↔ ∃ i, w <+: l.drop i := by
  rw [List.infix_iff_prefix_suffix]
  constructor
  · rintro ⟨t, hw, ht⟩
    exact ⟨_, List.suffix_iff_eq_drop.1 ht ▸ hw⟩
  · rintro ⟨i, hw⟩
    exact ⟨_, hw, List.drop_suffix i l⟩

theorem hit_iff (hw : w ≠ []) : hit w l ↔ w <:+: l := by
  have hpos := List.length_pos_iff.2 hw
  rw [hit, List.any_eq_true, infix_iff_drop]
  constructor
  · rintro ⟨i, -, htake⟩
    exact ⟨i, List.prefix_iff_eq_take.2 (of_decide_eq_true htake).symm⟩
  · rintro ⟨i, hprefix⟩
    have hlength := hprefix.length_le
    rw [List.length_drop] at hlength
    exact ⟨i, List.mem_range.2 (by omega), decide_eq_true (List.prefix_iff_eq_take.1 hprefix).symm⟩

omit [DecidableEq α] in
theorem tail_append_eq (w x y : List α) :
    tail w x ++ y = (x ++ y).drop (x.length - (w.length - 1)) :=
  (List.drop_append_of_le_length (Nat.sub_le _ _)).symm

omit [DecidableEq α] in
/-- What does not occur in a list can only begin in its end. -/
theorem infix_append_iff (hx : ¬w <:+: x) : w <:+: x ++ y ↔ w <:+: tail w x ++ y := by
  constructor
  · intro h
    obtain ⟨i, hprefix⟩ := infix_iff_drop.1 h
    rcases le_or_gt (x.length - (w.length - 1)) i with hi | hi
    · refine infix_iff_drop.2 ⟨i - (x.length - (w.length - 1)), ?_⟩
      rwa [tail_append_eq, List.drop_drop, Nat.add_sub_cancel' hi]
    · refine absurd (infix_iff_drop.2 ⟨i, ?_⟩) hx
      rw [List.drop_append_of_le_length (by omega)] at hprefix
      exact List.prefix_of_prefix_length_le hprefix (List.prefix_append _ _)
        (by rw [List.length_drop]; omega)
  · intro h
    refine h.trans (List.IsSuffix.isInfix ⟨x.take (x.length - (w.length - 1)), ?_⟩)
    rw [tail, ← List.append_assoc, List.take_append_drop]

omit [DecidableEq α] in
theorem tail_append (w x y : List α) : tail w (tail w x ++ y) = tail w (x ++ y) := by
  rw [tail_append_eq, tail, tail, List.length_drop, List.drop_drop, List.length_append]
  congr 1
  omega

/-- The word is found exactly if it occurs in the stream. -/
theorem scan_append_iff (hw : w ≠ []) (hblocks : ∀ block ∈ blocks, block ≠ []) (hx : ¬w <:+: x) :
    scan w (tail w x) blocks ↔ w <:+: x ++ blocks.flatten := by
  induction blocks generalizing x with
  | nil =>
    rw [List.flatten_nil, List.append_nil]
    exact iff_of_false Bool.false_ne_true hx
  | cons block blocks ih =>
    rw [List.forall_mem_cons] at hblocks
    rw [scan, if_neg hblocks.1, Bool.or_eq_true, hit_iff hw, ← infix_append_iff hx, tail_append,
      List.flatten_cons, ← List.append_assoc]
    by_cases hblock : w <:+: x ++ block
    · exact iff_of_true (.inl hblock) (hblock.trans List.infix_append_left)
    · rw [or_iff_right hblock, ih hblocks.2 hblock]

theorem scan_iff (hw : w ≠ []) (hblocks : ∀ block ∈ blocks, block ≠ []) :
    scan w [] blocks ↔ w <:+: blocks.flatten := by
  have hscan := scan_append_iff hw hblocks (mt List.infix_nil.1 hw)
  rwa [tail, List.drop_nil, List.nil_append] at hscan

end Window
