import Mathlib.Data.List.TakeWhile
import PS5Torrent.Library.Search

/-!
# Parts behind separators

A list of parts, each with a separator before it, and the occurrences in it of a
word that does not contain the separator, at most one in each part
(`occurrences`). A word that marks a part stands at its start. The first
occurrences all come right after a separator exactly if the first parts that
contain the word have it at their start (`AtStart`, `cons_suffix_iff`); then the
values after them are those of the first parts that the word marks
(`map_valueAfter`).
-/

namespace Search

variable {α : Type} [DecidableEq α]

/-- The parts, each behind a separator. -/
def separated (c : α) (ps : List (List α)) : List α := ps.flatMap (c :: ·)

/-- The first parts that contain a word, up to a number, have it at their start. -/
def AtStart (w : List α) : List (List α) → ℕ → Prop
  | _, 0 => True
  | [], _ + 1 => True
  | p :: ps, n + 1 => w <+: p ∧ AtStart w ps n ∨ ¬w <:+: p ∧ AtStart w ps (n + 1)

/-- The parts that a word marks, without the word. -/
def marked (w : List α) (ps : List (List α)) : List (List α) :=
  (ps.filter (w.isPrefixOf ·)).map (·.drop w.length)

/-- The list from the first occurrences on, after each of which the next separator is looked for. -/
def occurrences (w : List α) (c : α) : ℕ → List α → List (List α)
  | 0, _ => []
  | n + 1, l =>
    match searchFrom w l with
    | none => []
    | some s =>
      let value := s.drop w.length
      s :: if c ∈ value then occurrences w c n (value.dropWhile (· ≠ c)) else []

/-- The value after an occurrence. -/
def valueAfter (w : List α) (c : α) (s : List α) : List α :=
  (s.drop w.length).takeWhile (· ≠ c)

variable {w l s p t rest : List α} {ps : List (List α)} {c : α} {i n : ℕ}

/-- Splitting a list at the separators gives parts without them. -/
theorem separated_splitOn (c : α) (l : List α) :
    separated c (l.splitOn c) = c :: l ∧ ∀ p ∈ l.splitOn c, c ∉ p := by
  induction hk : l.length using Nat.strong_induction_on generalizing l with
  | h k ih =>
    by_cases hc : c ∈ l
    · obtain ⟨p, rest, rfl, hp⟩ := List.eq_append_cons_of_mem hc
      have hlen : rest.length < k := by
        rw [← hk, List.length_append, List.length_cons]
        omega
      obtain ⟨hrest, hparts⟩ := ih rest.length hlen rest rfl
      rw [List.splitOn_append_cons_self_of_not_mem hp, separated, List.flatMap_cons,
        List.forall_mem_cons]
      exact ⟨congrArg (c :: p ++ ·) hrest, hp, hparts⟩
    · rw [List.splitOn_eq_singleton hc, separated, List.flatMap_singleton, List.forall_mem_singleton]
      exact ⟨rfl, hc⟩

/-! ## A search through the parts -/

theorem search_eq_zero_iff : search w l = some 0 ↔ w <+: l :=
  ⟨fun h => prefix_of_search h, search_eq_zero⟩

theorem suffix_of_searchFrom (h : searchFrom w l = some s) : s <:+ l := by
  obtain ⟨i, -, rfl⟩ := Option.map_eq_some_iff.1 h
  exact List.drop_suffix i l

theorem occurrences_one : occurrences w c 1 l = (searchFrom w l).toList := by
  rw [occurrences]
  cases searchFrom w l with
  | none => rfl
  | some s => exact congrArg (s :: ·) (ite_self [])

theorem occurrences_none (h : search w l = none) : occurrences w c n l = [] := by
  cases n with
  | zero => rfl
  | succ n => rw [occurrences, searchFrom, h, Option.map_none]

/-- An occurrence is a rest of the list that starts with the word. -/
theorem of_mem_occurrences (h : s ∈ occurrences w c n l) : s <:+ l ∧ w <+: s := by
  induction n generalizing l with
  | zero => cases h
  | succ n ih =>
    rw [occurrences] at h
    cases hs : searchFrom w l with
    | none =>
      rw [hs] at h
      cases h
    | some s' =>
      have hsuffix := suffix_of_searchFrom hs
      rw [hs] at h
      rcases List.mem_cons.1 h with rfl | h
      · obtain ⟨i, hi, rfl⟩ := Option.map_eq_some_iff.1 hs
        exact ⟨hsuffix, prefix_of_search hi⟩
      · split at h
        · obtain ⟨hs, hw⟩ := ih h
          exact ⟨hs.trans ((List.dropWhile_suffix _).trans ((List.drop_suffix _ _).trans hsuffix)),
            hw⟩
        · cases h

/-- A part without an occurrence is skipped. -/
theorem occurrences_skip {d : α} (hw : w ≠ []) (hd : d ∉ w) (hp : search w p = none) :
    occurrences w c n (p ++ d :: rest) = occurrences w c n rest := by
  cases n with
  | zero => rfl
  | succ n => rw [occurrences, occurrences, searchFrom_skip hw hd hp]

/-! ## What comes behind a part -/

omit [DecidableEq α] in
/-- Parts behind separators are no parts, or begin with a separator. -/
theorem separated_cases (c : α) (ps : List (List α)) :
    separated c ps = [] ∨ ∃ rest, separated c ps = c :: rest := by
  cases ps with
  | nil => exact Or.inl rfl
  | cons p ps => exact Or.inr ⟨_, rfl⟩

section Part

variable (hw : w ≠ []) (hc : c ∉ w) (ht : t = [] ∨ ∃ rest, t = c :: rest)

include hw hc ht

/-- Without an occurrence in a part, the search goes on behind it. -/
theorem occurrences_append (hp : search w p = none) :
    occurrences w c n (p ++ t) = occurrences w c n t := by
  rcases ht with rfl | ⟨rest, rfl⟩
  · rw [List.append_nil, occurrences_none hp, occurrences_none (search_nil hw)]
  · rw [occurrences_skip hw hc hp]
    exact (occurrences_skip (p := []) hw hc (search_nil hw)).symm

/-- An occurrence in a part is the first, and the search goes on behind the part. -/
theorem occurrences_append_of_some (hp : c ∉ p) (hi : search w p = some i) :
    occurrences w c (n + 1) (p ++ t) = (p.drop i ++ t) :: occurrences w c n t := by
  have hlen := add_length_le hw hi
  have hdrop : (p.drop i ++ t).drop w.length = (p.drop i).drop w.length ++ t := by
    rw [List.drop_append_of_le_length]
    rw [List.length_drop]
    omega
  have hvalue : c ∉ (p.drop i).drop w.length := fun h =>
    hp (List.mem_of_mem_drop (List.mem_of_mem_drop h))
  rcases ht with rfl | ⟨rest, rfl⟩
  · rw [List.append_nil, List.append_nil, occurrences, searchFrom_eq_some_of_search hi]
    dsimp only
    rw [if_neg hvalue, occurrences_none (search_nil hw)]
  · have hnext : ((p.drop i).drop w.length ++ c :: rest).dropWhile (· ≠ c) = c :: rest := by
      rw [List.dropWhile_append_of_pos fun a ha => decide_eq_true (ne_of_mem_of_not_mem ha hvalue),
        List.dropWhile_cons_of_neg (by simp)]
    rw [occurrences, searchFrom_left hw hc hi]
    dsimp only
    rw [hdrop, if_pos (List.mem_append_right _ List.mem_cons_self), hnext]

end Part

omit [DecidableEq α] in
/-- Behind a part, what follows a separator is the same. -/
theorem cons_suffix_append_iff (ht : t = [] ∨ ∃ rest, t = c :: rest) (hs : s <:+ t)
    (hhead : s.head? ≠ some c) (hne : s ≠ []) : c :: s <:+ p ++ t ↔ c :: s <:+ t := by
  refine ⟨fun h => ?_, fun h => h.trans (List.suffix_append p t)⟩
  rcases ht with rfl | ⟨rest, rfl⟩
  · exact absurd (List.suffix_nil.1 hs) hne
  · have hrest : s <:+ rest := by
      rcases List.suffix_cons_iff.1 hs with rfl | hs
      · exact absurd rfl hhead
      · exact hs
    exact List.suffix_of_suffix_length_le h (List.suffix_append p _)
      (Nat.succ_le_succ hrest.length_le)

omit [DecidableEq α] in
/-- A rest of a part stands behind the separator only if it is the part. -/
theorem cons_drop_append_suffix_iff (hp : c ∉ p) (hi : i ≤ p.length) :
    c :: (p.drop i ++ t) <:+ c :: (p ++ t) ↔ i = 0 := by
  constructor
  · intro h
    rcases List.suffix_cons_iff.1 h with heq | ⟨x, hx⟩
    · have hlen := congrArg List.length (List.append_cancel_right (List.cons.inj heq).2)
      rw [List.length_drop] at hlen
      omega
    · -- the separator would be the last of the elements before the rest
      have htake : x ++ [c] = p.take i := by
        rw [← List.append_cancel_right_eq _ (p.drop i ++ t), ← List.append_assoc (p.take i),
          List.take_append_drop, ← hx, List.append_assoc]
        rfl
      have hmem : c ∈ p.take i := htake ▸ List.mem_append_right x (List.mem_singleton_self c)
      exact absurd (List.mem_of_mem_take hmem) hp
  · rintro rfl
    exact List.suffix_rfl

/-! ## Starts of parts -/

/-- A part without an occurrence has no say. -/
theorem atStart_of_none (h : search w p = none) : AtStart w (p :: ps) n ↔ AtStart w ps n := by
  have hinfix := search_eq_none.1 h
  cases n with
  | zero => exact iff_of_true (by rw [AtStart]; trivial) (by rw [AtStart]; trivial)
  | succ n =>
    rw [AtStart, and_iff_right hinfix]
    exact or_iff_right fun h => hinfix h.1.isInfix

theorem atStart_of_some (h : search w p = some i) :
    AtStart w (p :: ps) (n + 1) ↔ w <+: p ∧ AtStart w ps n := by
  have hinfix : w <:+: p := infix_iff_search.2 (h ▸ rfl)
  rw [AtStart]
  exact or_iff_left fun h => h.1 hinfix

section Parts

variable (hw : w ≠ []) (hc : c ∉ w) (hps : ∀ p ∈ ps, c ∉ p)

include hw hc hps

/-- The first occurrences stand behind separators exactly if they are at the start of their
    parts. -/
theorem cons_suffix_iff :
    (∀ s ∈ occurrences w c n (separated c ps), c :: s <:+ separated c ps) ↔ AtStart w ps n := by
  induction ps generalizing n with
  | nil =>
    rw [separated, List.flatMap_nil, occurrences_none (search_nil hw)]
    refine iff_of_true (fun s hs => absurd hs List.not_mem_nil) ?_
    cases n <;> rw [AtStart] <;> trivial
  | cons p ps ih =>
    rw [List.forall_mem_cons] at hps
    have ht := separated_cases c ps
    have hcons : separated c (p :: ps) = c :: p ++ separated c ps := rfl
    have hskip : occurrences w c n (separated c (p :: ps)) =
        occurrences w c n (p ++ separated c ps) :=
      occurrences_skip (p := []) hw hc (search_nil hw)
    -- behind the part, nothing changes for the occurrences
    have hbehind (k : ℕ) : (∀ s ∈ occurrences w c k (separated c ps),
        c :: s <:+ separated c (p :: ps)) ↔ AtStart w ps k := by
      rw [← ih hps.2]
      refine forall₂_congr fun s hs => ?_
      obtain ⟨hsuffix, b, rfl⟩ := of_mem_occurrences hs
      obtain ⟨a, w', rfl⟩ := List.exists_cons_of_ne_nil hw
      rw [hcons]
      refine cons_suffix_append_iff ht hsuffix ?_ (List.cons_ne_nil _ _)
      intro hhead
      exact hc (Option.some.inj hhead ▸ List.mem_cons_self)
    rw [hskip]
    cases hi : search w p with
    | none => rw [occurrences_append hw hc ht hi, atStart_of_none hi, hbehind]
    | some i =>
      cases n with
      | zero => exact iff_of_true (fun s hs => absurd hs List.not_mem_nil) (by rw [AtStart]; trivial)
      | succ n =>
        have hle := add_length_le hw hi
        have hstart : c :: (p.drop i ++ separated c ps) <:+ separated c (p :: ps) ↔ w <+: p := by
          rw [hcons, List.cons_append, cons_drop_append_suffix_iff hps.1 (by omega),
            ← search_eq_zero_iff, hi, Option.some.injEq]
        rw [occurrences_append_of_some hw hc ht hps.1 hi, atStart_of_some hi, List.forall_mem_cons,
          hbehind, hstart]

/-- Occurrences that stand behind separators are followed by the values of the first parts that
    the word marks. -/
theorem map_valueAfter (h : AtStart w ps n) :
    (occurrences w c n (separated c ps)).map (valueAfter w c) = (marked w ps).take n := by
  induction ps generalizing n with
  | nil =>
    rw [separated, List.flatMap_nil, occurrences_none (search_nil hw)]
    exact List.take_nil.symm
  | cons p ps ih =>
    rw [List.forall_mem_cons] at hps
    have ht := separated_cases c ps
    have hskip : occurrences w c n (separated c (p :: ps)) =
        occurrences w c n (p ++ separated c ps) :=
      occurrences_skip (p := []) hw hc (search_nil hw)
    rw [hskip, marked, List.filter_cons]
    cases hi : search w p with
    | none =>
      have hpre : ¬w.isPrefixOf p := fun h =>
        search_eq_none.1 hi (List.isPrefixOf_iff_prefix.1 h).isInfix
      rw [occurrences_append hw hc ht hi, if_neg hpre]
      exact ih hps.2 ((atStart_of_none hi).1 h)
    | some i =>
      cases n with
      | zero => rfl
      | succ n =>
        obtain ⟨hpre, hrest⟩ := (atStart_of_some hi).1 h
        have hzero : some i = some 0 := hi.symm.trans (search_eq_zero hpre)
        obtain rfl := Option.some.inj hzero
        have hvalue : valueAfter w c (p.drop 0 ++ separated c ps) = p.drop w.length := by
          have hlen := hpre.length_le
          have hmem : c ∉ p.drop w.length := fun h => hps.1 (List.mem_of_mem_drop h)
          rw [valueAfter, List.drop_zero, List.drop_append_of_le_length hlen]
          rcases ht with ht | ⟨rest, ht⟩
          · rw [ht, List.append_nil]
            exact List.takeWhile_eq_self_iff.2 fun a ha =>
              decide_eq_true (ne_of_mem_of_not_mem ha hmem)
          · rw [ht, List.takeWhile_append_of_pos fun a ha =>
              decide_eq_true (ne_of_mem_of_not_mem ha hmem), List.takeWhile_cons_of_neg (by simp),
              List.append_nil]
        rw [occurrences_append_of_some hw hc ht hps.1 hi, if_pos (List.isPrefixOf_iff_prefix.2 hpre),
          List.map_cons, List.map_cons, List.take_succ_cons, hvalue, ih hps.2 hrest]
        rfl

end Parts

end Search
