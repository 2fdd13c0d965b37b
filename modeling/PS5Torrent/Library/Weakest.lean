import PS5Torrent.Library.Effect

/-!
# Weakest preconditions

What holds after a run of a computation that may fail: one condition for its
success, with the value, and one for its failure, with the error (`wp`). A
specification of a computation says which conditions hold from which states,
and composes: the conditions of a sequence are those of its first part, with
those of the rest in the place of the success (`wp_bind`).
-/

namespace Effect

variable {ε σ α β : Type}

/-- After a run from `s`, `post` holds if it succeeds and `fail` if not. -/
def wp (x : EStateM ε σ α) (post : α → σ → Prop) (fail : ε → σ → Prop) (s : σ) : Prop :=
  match x s with
  | .ok a s' => post a s'
  | .error e s' => fail e s'

variable {x : EStateM ε σ α} {f : α → EStateM ε σ β} {post post' : α → σ → Prop}
  {fail fail' : ε → σ → Prop} {s : σ}

theorem wp_pure (a : α) : wp (pure a) post fail s ↔ post a s := Iff.rfl

theorem wp_throw (e : ε) : wp (throw e : EStateM ε σ α) post fail s ↔ fail e s := Iff.rfl

theorem wp_get {post : σ → σ → Prop} : wp (get : EStateM ε σ σ) post fail s ↔ post s s := Iff.rfl

theorem wp_bind {post : β → σ → Prop} :
    wp (x >>= f) post fail s ↔ wp x (fun a s' => wp (f a) post fail s') fail s := by
  cases h : x s with
  | ok a s' => simp only [wp, h, bind_of_ok h]
  | error e s' => simp only [wp, h, bind_of_error h]

/-- What holds after a run may be weakened. -/
theorem wp_mono (h : wp x post fail s) (hpost : ∀ a s', post a s' → post' a s')
    (hfail : ∀ e s', fail e s' → fail' e s') : wp x post' fail' s := by
  rw [wp] at h ⊢
  cases hx : x s with
  | ok a s' =>
    rw [hx] at h
    exact hpost a s' h
  | error e s' =>
    rw [hx] at h
    exact hfail e s' h

/-- A specification of the first part of a sequence is used. -/
theorem wp_bind_of {post' : β → σ → Prop} (h : wp x post fail s)
    (hpost : ∀ a s', post a s' → wp (f a) post' fail' s')
    (hfail : ∀ e s', fail e s' → fail' e s') : wp (x >>= f) post' fail' s :=
  wp_bind.2 (wp_mono h hpost hfail)

theorem wp_ite {c : Prop} [Decidable c] {y : EStateM ε σ α} (hx : c → wp x post fail s)
    (hy : ¬c → wp y post fail s) : wp (if c then x else y) post fail s := by
  split
  · exact hx ‹_›
  · exact hy ‹_›

/-- What holds after a run that succeeded. -/
theorem wp_ok (h : wp x post fail s) {a : α} {s' : σ} (hx : x s = .ok a s') : post a s' := by
  rwa [wp, hx] at h

end Effect
