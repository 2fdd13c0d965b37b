import Mathlib

/-!
# Tables of slots

A table is a list of slots, each free or with an entry in it. Entries have
keys; what an owner of one key does to its own entries leaves the table as it
is for the other keys (`others`).
-/

namespace Slots

variable {α κ : Type} [DecidableEq κ] (key : α → κ) (k : κ)

/-- The table without the entries of a key. -/
def others (slots : List (Option α)) : List (Option α) :=
  slots.map fun slot => slot.filter fun a => key a ≠ k

variable {key k} {slots : List (Option α)} {i : ℕ} {a b : α} {slot : Option α}

theorem getElem?_of_join (h : slots[i]?.join = some a) : slots[i]? = some (some a) := by
  cases hi : slots[i]? with
  | none => rw [hi] at h; cases h
  | some slot => rw [hi] at h; exact congrArg some h

/-- The entries of other keys are those of the table. -/
theorem mem_others : some a ∈ others key k slots ↔ some a ∈ slots ∧ key a ≠ k := by
  rw [others, List.mem_map]
  constructor
  · rintro ⟨slot, hslot, ha⟩
    obtain ⟨b, rfl, hb, rfl⟩ : ∃ b, slot = some b ∧ key b ≠ k ∧ b = a := by
      obtain ⟨rfl, hk⟩ := Option.filter_eq_some_iff.1 ha
      exact ⟨a, rfl, by simpa using hk, rfl⟩
    exact ⟨hslot, hb⟩
  · rintro ⟨ha, hk⟩
    exact ⟨some a, ha, by simp [hk]⟩

/-- A slot that is free or of the key may be overwritten in this way. -/
theorem others_set (hold : ∀ a, slots[i]? = some (some a) → key a = k)
    (hnew : ∀ a, slot = some a → key a = k) :
    others key k (slots.set i slot) = others key k slots := by
  refine List.ext_getElem? fun j => ?_
  rw [others, others, List.getElem?_map, List.getElem?_map, List.getElem?_set]
  by_cases hij : i = j
  · subst hij
    rw [if_pos rfl]
    have hslot : slot.filter (fun a => key a ≠ k) = none := by
      cases slot with
      | none => rfl
      | some a => simp [hnew a rfl]
    split
    case isTrue hlt =>
      have hi := List.getElem?_eq_getElem hlt
      have hcur : (slots[i]).filter (fun a => key a ≠ k) = none := by
        cases hget : slots[i] with
        | none => rfl
        | some a =>
          rw [hget] at hi
          simp [hold a hi]
      rw [hi, Option.map_some, Option.map_some, hslot, hcur]
    case isFalse hge => rw [List.getElem?_eq_none (not_lt.1 hge)]
  · rw [if_neg hij]

/-- Entries that are not of the key are counted without those of the key. -/
theorem countP_others {p : α → Bool} (hp : ∀ a, p a → key a ≠ k) :
    (others key k slots).countP (·.any p) = slots.countP (·.any p) := by
  rw [others, List.countP_map]
  refine List.countP_congr fun slot _ => ?_
  cases slot with
  | none => rfl
  | some a =>
    rw [Function.comp_apply, Option.filter_some]
    by_cases hk : key a = k
    · have hpa : p a = false := by
        cases hpa : p a with
        | false => rfl
        | true => exact absurd hk (hp a hpa)
      simp [hk, hpa]
    · simp [hk]

/-! ## Counting -/

/-- Overwriting an element moves its count to the new one. -/
theorem countP_set_add {β : Type} {p : β → Bool} {xs : List β} {x y : β} (h : xs[i]? = some x) :
    (xs.set i y).countP p + (if p x then 1 else 0) = xs.countP p + (if p y then 1 else 0) := by
  induction xs generalizing i with
  | nil => cases h
  | cons z xs ih =>
    cases i with
    | zero =>
      obtain rfl := Option.some.inj h
      rw [List.set_cons_zero, List.countP_cons, List.countP_cons]
      omega
    | succ i =>
      rw [List.set_cons_succ, List.countP_cons, List.countP_cons]
      have := ih h
      omega

/-- An element that is overwritten by itself. -/
theorem set_getElem?_self {β : Type} {xs : List β} {x : β} (h : xs[i]? = some x) : xs.set i x = xs := by
  obtain ⟨hlt, rfl⟩ := List.getElem?_eq_some_iff.1 h
  exact List.set_getElem_self hlt

/-- Overwriting an element moves its share of a sum to the new one. -/
theorem sum_map_set_add {β : Type} {f : β → ℕ} {xs : List β} {x y : β} (h : xs[i]? = some x) :
    ((xs.set i y).map f).sum + f x = (xs.map f).sum + f y := by
  induction xs generalizing i with
  | nil => cases h
  | cons z xs ih =>
    cases i with
    | zero =>
      obtain rfl := Option.some.inj h
      rw [List.set_cons_zero, List.map_cons, List.map_cons, List.sum_cons, List.sum_cons]
      omega
    | succ i =>
      rw [List.set_cons_succ, List.map_cons, List.map_cons, List.sum_cons, List.sum_cons]
      have := ih h
      omega

/-- An element that is taken out takes its share of a sum with it. -/
theorem sum_map_eraseIdx_add {β : Type} {f : β → ℕ} {xs : List β} {x : β} (h : xs[i]? = some x) :
    ((xs.eraseIdx i).map f).sum + f x = (xs.map f).sum := by
  induction xs generalizing i with
  | nil => cases h
  | cons z xs ih =>
    cases i with
    | zero =>
      obtain rfl := Option.some.inj h
      rw [List.eraseIdx_cons_zero, List.map_cons, List.sum_cons, add_comm]
    | succ i =>
      rw [List.eraseIdx_cons_succ, List.map_cons, List.map_cons, List.sum_cons, List.sum_cons,
        add_assoc, ih h]

/-- A loop that changes each element changes them all. -/
theorem foldl_modify_range {β : Type} (f : β → β) (xs : List β) :
    (List.range xs.length).foldl (fun xs i => xs.modify i f) xs = xs.map f := by
  have hget (n j : ℕ) : ((List.range n).foldl (fun xs i => xs.modify i f) xs)[j]? =
      if j < n then xs[j]?.map f else xs[j]? := by
    induction n with
    | zero => rfl
    | succ n ih =>
      rw [List.range_succ, List.foldl_concat, List.getElem?_modify, ih]
      by_cases hj : n = j
      · subst hj
        rw [if_neg (lt_irrefl _), if_pos (Nat.lt_succ_self _)]
        simp
      · have hlt : j < n + 1 ↔ j < n := by omega
        rw [if_congr hlt rfl rfl]
        simp [hj]
  refine List.ext_getElem? fun j => ?_
  rw [hget, List.getElem?_map]
  split
  case isTrue => rfl
  case isFalse hj => rw [List.getElem?_eq_none (not_lt.1 hj), Option.map_none]

end Slots
