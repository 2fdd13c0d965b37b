import Mathlib.Order.Defs.Unbundled
import Mathlib.Order.RelClasses

/-!
# Computations with a state that may fail

A computation of `EStateM ε σ α` returns a value or fails, and either way
leaves a state: the state changes of a failed computation are kept, as they
are in a program whose functions report failure by a return code.

* `Respects R x`: every run of `x` takes the state to an `R`-related one,
  whether it succeeds or fails. For a reflexive and transitive `R` this is
  closed under the composition of computations.
* `bind_eq_ok`, `forM_cons_eq_ok`: what a successful run consists of.
-/

namespace Effect

variable {ε σ α β : Type}

/-- The state left by a run. -/
def final (x : EStateM ε σ α) (s : σ) : σ :=
  match x s with
  | .ok _ s' => s'
  | .error _ s' => s'

theorem final_of_ok {x : EStateM ε σ α} {s s' : σ} {a : α} (h : x s = .ok a s') :
    final x s = s' := by
  rw [final, h]

theorem final_of_error {x : EStateM ε σ α} {s s' : σ} {e : ε} (h : x s = .error e s') :
    final x s = s' := by
  rw [final, h]

/-- The run succeeds. -/
def succeeds (x : EStateM ε σ α) (s : σ) : Bool :=
  match x s with
  | .ok .. => true
  | .error .. => false

theorem exists_of_succeeds {x : EStateM ε σ α} {s : σ} (h : succeeds x s) :
    ∃ a, x s = .ok a (final x s) := by
  rw [succeeds] at h
  rw [final]
  cases hx : x s with
  | ok a s' => exact ⟨a, rfl⟩
  | error e s' =>
    rw [hx] at h
    exact absurd h Bool.false_ne_true

theorem exists_of_not_succeeds {x : EStateM ε σ α} {s : σ} (h : succeeds x s = false) :
    ∃ e, x s = .error e (final x s) := by
  rw [succeeds] at h
  rw [final]
  cases hx : x s with
  | ok a s' =>
    rw [hx] at h
    exact absurd h.symm Bool.false_ne_true
  | error e s' => exact ⟨e, rfl⟩

/-- Every run of `x` takes the state to a related one. -/
def Respects (R : σ → σ → Prop) (x : EStateM ε σ α) : Prop := ∀ s, R s (final x s)

/-! ## Successful runs -/

theorem bind_eq_ok {x : EStateM ε σ α} {f : α → EStateM ε σ β} {s s'' : σ} {b : β} :
    (x >>= f) s = .ok b s'' ↔ ∃ a s', x s = .ok a s' ∧ f a s' = .ok b s'' := by
  change EStateM.bind x f s = _ ↔ _
  rw [EStateM.bind]
  cases hx : x s with
  | ok a s' =>
    refine ⟨fun h => ⟨a, s', rfl, h⟩, ?_⟩
    rintro ⟨_, _, ⟨⟩, h⟩
    exact h
  | error e s' =>
    refine ⟨fun h => (nomatch h), ?_⟩
    rintro ⟨_, _, h, _⟩
    exact nomatch h

theorem bind_of_ok {x : EStateM ε σ α} {f : α → EStateM ε σ β} {s s' : σ} {a : α}
    (h : x s = .ok a s') : (x >>= f) s = f a s' := by
  change EStateM.bind x f s = _
  rw [EStateM.bind, h]

theorem bind_of_error {x : EStateM ε σ α} {f : α → EStateM ε σ β} {s s' : σ} {e : ε}
    (h : x s = .error e s') : (x >>= f) s = .error e s' := by
  change EStateM.bind x f s = _
  rw [EStateM.bind, h]

theorem final_bind_of_ok {x : EStateM ε σ α} {f : α → EStateM ε σ β} {s s' : σ} {a : α}
    (h : x s = .ok a s') : final (x >>= f) s = final (f a) s' := by
  rw [final, bind_of_ok h, final]

theorem final_bind_of_error {x : EStateM ε σ α} {f : α → EStateM ε σ β} {s s' : σ} {e : ε}
    (h : x s = .error e s') : final (x >>= f) s = s' :=
  final_of_error (bind_of_error h)

theorem pure_eq_ok {a b : α} {s s' : σ} :
    (pure a : EStateM ε σ α) s = .ok b s' ↔ a = b ∧ s = s' := by
  refine ⟨?_, ?_⟩
  · rintro ⟨⟩
    exact ⟨rfl, rfl⟩
  · rintro ⟨rfl, rfl⟩
    rfl

theorem throw_ne_ok {e : ε} {a : α} {s s' : σ} :
    (throw e : EStateM ε σ α) s ≠ .ok a s' := fun h => nomatch h

theorem adaptExcept_eq_ok {ε' : Type} {f : ε → ε'} {x : EStateM ε σ α} {a : α} {s s' : σ} :
    EStateM.adaptExcept f x s = .ok a s' ↔ x s = .ok a s' := by
  rw [EStateM.adaptExcept]
  cases x s with
  | ok b s₁ => exact ⟨fun h => by injection h with ha hs; rw [ha, hs], fun h => by rw [h]⟩
  | error e s₁ => exact ⟨fun h => (nomatch h), fun h => (nomatch h)⟩

theorem forM_cons_eq_ok {f : α → EStateM ε σ PUnit} {x : α} {xs : List α} {s s'' : σ} :
    ((x :: xs).forM f) s = .ok ⟨⟩ s'' ↔ ∃ s', f x s = .ok ⟨⟩ s' ∧ (xs.forM f) s' = .ok ⟨⟩ s'' := by
  change (f x >>= fun _ => xs.forM f) s = _ ↔ _
  rw [bind_eq_ok]
  exact ⟨fun ⟨_, s', h⟩ => ⟨s', h⟩, fun ⟨s', h⟩ => ⟨⟨⟩, s', h⟩⟩

/-- Where a computation succeeds, its handler is not run. -/
theorem tryCatch_of_ok {x : EStateM ε σ α} {handler : ε → EStateM ε σ α} {s s' : σ} {a : α}
    (h : x s = .ok a s') : tryCatch x handler s = .ok a s' := by
  change EStateM.tryCatch x handler s = _
  rw [EStateM.tryCatch, h]

theorem tryCatch_of_error {x : EStateM ε σ α} {handler : ε → EStateM ε σ α} {s s' : σ} {e : ε}
    (h : x s = .error e s') : tryCatch x handler s = handler e s' := by
  change EStateM.tryCatch x handler s = _
  rw [EStateM.tryCatch, h]
  rfl

/-- A loop succeeds if its body always does. -/
theorem exists_forM_eq_ok {f : α → EStateM ε σ PUnit} {xs : List α}
    (h : ∀ x ∈ xs, ∀ s, ∃ s', f x s = .ok ⟨⟩ s') (s : σ) : ∃ s', (xs.forM f) s = .ok ⟨⟩ s' := by
  induction xs generalizing s with
  | nil => exact ⟨s, rfl⟩
  | cons x xs ih =>
    obtain ⟨s₁, hx⟩ := h x List.mem_cons_self s
    obtain ⟨s', hxs⟩ := ih (fun y hy => h y (List.mem_cons_of_mem _ hy)) s₁
    exact ⟨s', forM_cons_eq_ok.2 ⟨s₁, hx, hxs⟩⟩

/-- Steps that lead from a state to another, one for each element of a list. -/
inductive Chain {σ α : Type} (step : α → σ → σ → Prop) : List α → σ → σ → Prop
  | nil (s : σ) : Chain step [] s s
  | cons {x : α} {xs : List α} {s s' s'' : σ} (head : step x s s') (tail : Chain step xs s' s'') :
    Chain step (x :: xs) s s''

/-- A loop succeeds exactly if its body does so on each element in turn. -/
theorem forM_eq_ok_iff {f : α → EStateM ε σ PUnit} {xs : List α} {s s' : σ} :
    (xs.forM f) s = .ok ⟨⟩ s' ↔ Chain (fun x s s' => f x s = .ok ⟨⟩ s') xs s s' := by
  induction xs generalizing s with
  | nil =>
    refine ⟨fun h => ?_, ?_⟩
    · obtain ⟨-, rfl⟩ := pure_eq_ok.1 h
      exact .nil s
    · rintro ⟨⟩
      rfl
  | cons x xs ih =>
    rw [forM_cons_eq_ok]
    constructor
    · rintro ⟨s₁, hx, hxs⟩
      exact .cons hx (ih.1 hxs)
    · rintro (_ | ⟨hx, hxs⟩)
      exact ⟨_, hx, ih.2 hxs⟩

theorem Chain.mono {step step' : α → σ → σ → Prop} {xs : List α} {s s' : σ}
    (h : ∀ x ∈ xs, ∀ s s', step x s s' → step' x s s') (hchain : Chain step xs s s') :
    Chain step' xs s s' := by
  induction hchain with
  | nil s => exact .nil s
  | cons hx _ ih =>
    exact .cons (h _ List.mem_cons_self _ _ hx) (ih fun y hy => h y (List.mem_cons_of_mem _ hy))

/-- A loop that succeeds has run its body on every element. -/
theorem exists_of_forM_eq_ok {f : α → EStateM ε σ PUnit} {xs : List α} {s s' : σ} {x : α}
    (h : (xs.forM f) s = .ok ⟨⟩ s') (hx : x ∈ xs) : ∃ s₁ s₂, f x s₁ = .ok ⟨⟩ s₂ := by
  induction xs generalizing s with
  | nil => cases hx
  | cons y ys ih =>
    obtain ⟨s₁, hy, hys⟩ := forM_cons_eq_ok.1 h
    rcases List.mem_cons.1 hx with rfl | hx
    exacts [⟨s, s₁, hy⟩, ih hys hx]

/-! ## Relations kept by every run -/

variable {R : σ → σ → Prop}

theorem Respects.ok {x : EStateM ε σ α} (hx : Respects R x) {s s' : σ} {a : α}
    (h : x s = .ok a s') : R s s' :=
  final_of_ok h ▸ hx s

theorem Respects.error {x : EStateM ε σ α} (hx : Respects R x) {s s' : σ} {e : ε}
    (h : x s = .error e s') : R s s' :=
  final_of_error h ▸ hx s

theorem Respects.mono {R' : σ → σ → Prop} (h : ∀ {s s'}, R s s' → R' s s')
    {x : EStateM ε σ α} (hx : Respects R x) : Respects R' x :=
  fun s => h (hx s)

theorem Respects.adaptExcept {ε' : Type} {x : EStateM ε σ α} (f : ε → ε') (hx : Respects R x) :
    Respects R (EStateM.adaptExcept f x) := by
  intro s
  cases h : x s with
  | ok a s' =>
    have hfinal : final (EStateM.adaptExcept f x) s = s' := by rw [final, EStateM.adaptExcept, h]
    rw [hfinal]
    exact hx.ok h
  | error e s' =>
    have hfinal : final (EStateM.adaptExcept f x) s = s' := by rw [final, EStateM.adaptExcept, h]
    rw [hfinal]
    exact hx.error h

theorem respects_ite {c : Prop} [Decidable c] {x y : EStateM ε σ α} (hx : c → Respects R x)
    (hy : ¬c → Respects R y) : Respects R (if c then x else y) := by
  split
  · exact hx ‹_›
  · exact hy ‹_›

variable [IsPreorder σ R]

theorem respects_pure (a : α) : Respects R (pure a : EStateM ε σ α) := fun s => refl_of R s

theorem respects_throw (e : ε) : Respects R (throw e : EStateM ε σ α) := fun s => refl_of R s

theorem respects_get : Respects R (get : EStateM ε σ σ) := fun s => refl_of R s

/-- What comes second only has to keep the relation for the values that the first may return. -/
theorem Respects.bind_of_ok {x : EStateM ε σ α} {f : α → EStateM ε σ β} (hx : Respects R x)
    (hf : ∀ s a s', x s = .ok a s' → Respects R (f a)) : Respects R (x >>= f) := by
  intro s
  change R s (final (EStateM.bind x f) s)
  cases h : x s with
  | ok a s' =>
    have hfinal : final (EStateM.bind x f) s = final (f a) s' := by rw [final, EStateM.bind, h]; rfl
    rw [hfinal]
    exact trans_of R (hx.ok h) (hf s a s' h s')
  | error e s' =>
    have hfinal : final (EStateM.bind x f) s = s' := by rw [final, EStateM.bind, h]
    rw [hfinal]
    exact hx.error h

theorem Respects.bind {x : EStateM ε σ α} {f : α → EStateM ε σ β} (hx : Respects R x)
    (hf : ∀ a, Respects R (f a)) : Respects R (x >>= f) :=
  hx.bind_of_ok fun _ a _ _ => hf a

theorem Respects.tryCatch {x : EStateM ε σ α} {handler : ε → EStateM ε σ α} (hx : Respects R x)
    (hh : ∀ e, Respects R (handler e)) : Respects R (tryCatch x handler) := by
  intro s
  change R s (final (EStateM.tryCatch x handler) s)
  cases h : x s with
  | ok a s' =>
    have hfinal : final (EStateM.tryCatch x handler) s = s' := by rw [final, EStateM.tryCatch, h]
    rw [hfinal]
    exact hx.ok h
  | error e s' =>
    have hfinal : final (EStateM.tryCatch x handler) s = final (handler e) s' := by
      rw [final, EStateM.tryCatch, h]
      rfl
    rw [hfinal]
    exact trans_of R (hx.error h) (hh e s')

theorem respects_forM {f : α → EStateM ε σ PUnit} {xs : List α} (h : ∀ x ∈ xs, Respects R (f x)) :
    Respects R (xs.forM f) := by
  induction xs with
  | nil => exact respects_pure _
  | cons x xs ih =>
    exact (h x List.mem_cons_self).bind fun _ => ih fun y hy => h y (List.mem_cons_of_mem _ hy)

end Effect
