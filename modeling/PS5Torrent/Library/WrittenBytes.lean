import PS5Torrent.Library.FileSystem

/-!
# Bytes in their places

What a write has put into a file can be read back (`Write.IsIn`) as long as
all that is written afterwards goes elsewhere. What happens to the files may
be known only as far as that: no byte is lost outside the places that some
writes cover, whether they succeed, fail or stop halfway (`KeepsOutside`).
-/

namespace FileSystem

open LexPath

/-- The byte of a file at a position. -/
def Contents.byte (f : Contents) (p : Path) (k : ℕ) : Option UInt8 := ((f p).getD [])[k]?

namespace Write

/-- The bytes of the write are in their places. -/
def IsIn (w : Write) (f : Contents) : Prop :=
  (((f w.path).getD []).drop w.off).take w.data.length = w.data

/-- The writes have no place in common. -/
def Apart (w w' : Write) : Prop := w.path = w'.path → ∀ k, w.Covers k → ¬w'.Covers k

end Write

/-- Outside the places of the writes, no byte is lost or changed. -/
def KeepsOutside (ws : List Write) (f f' : Contents) : Prop :=
  ∀ p k b, f.byte p k = some b → (∀ w ∈ ws, w.path = p → ¬w.Covers k) → f'.byte p k = some b

variable {f f' : Contents} {w w' : Write} {ws ws' : List Write} {p : Path} {k : ℕ}

instance (ws : List Write) : IsPreorder Contents (KeepsOutside ws) where
  refl _ _ _ _ h _ := h
  trans _ _ _ h h' p k b hb hout := h' p k b (h p k b hb hout) hout

namespace Write

theorem Apart.symm (h : w.Apart w') : w'.Apart w := fun hpath k hk hk' => h hpath.symm k hk' hk

theorem apart_of_path_ne (h : w.path ≠ w'.path) : w.Apart w' := fun hpath => absurd hpath h

/-- The bytes of a write are in their places exactly if each one is. -/
theorem isIn_iff : w.IsIn f ↔ ∀ k, w.Covers k → f.byte w.path k = w.data[k - w.off]? := by
  constructor
  · intro h k ⟨hl, hu⟩
    rw [← h, List.getElem?_take_of_lt (by omega), List.getElem?_drop, Contents.byte]
    congr 1
    omega
  · intro h
    refine List.ext_getElem? fun k => ?_
    by_cases hk : k < w.data.length
    · have hbyte := h (w.off + k) ⟨Nat.le_add_right _ _, by omega⟩
      rw [Nat.add_sub_cancel_left] at hbyte
      rw [List.getElem?_take_of_lt hk, List.getElem?_drop, ← hbyte, Contents.byte]
    · rw [List.getElem?_eq_none (by rw [List.length_take]; omega),
        List.getElem?_eq_none (by omega)]

end Write

/-! ## One write -/

/-- A write puts its bytes in their places. -/
theorem isIn_put (f : Contents) (w : Write) : w.IsIn (put f w) := by
  refine Write.isIn_iff.2 fun k hk => ?_
  rw [Contents.byte, put_self, Option.getD_some, getElem?_writeAt_of_mem hk.1 hk.2]

/-- A write changes no byte but those it covers. -/
theorem keepsOutside_put (hw : ∀ k, w.Covers k → ∃ v ∈ ws, v.path = w.path ∧ v.Covers k) :
    KeepsOutside ws f (put f w) := by
  intro p k b hb hout
  by_cases hp : w.path = p
  · subst hp
    have hk : k < ((f w.path).getD []).length := (List.getElem?_eq_some_iff.1 hb).1
    have hcov : ¬w.Covers k := by
      intro hcov
      obtain ⟨v, hv, hpath, hvk⟩ := hw k hcov
      exact hout v hv hpath hvk
    rw [Write.Covers, not_and_or, not_le, not_lt] at hcov
    rw [Contents.byte, put_self, Option.getD_some, getElem?_writeAt_of_not_mem hk hcov]
    exact hb
  · rw [Contents.byte, put_of_ne hp]
    exact hb

theorem KeepsOutside.mono (h : KeepsOutside ws f f') (hws : ws ⊆ ws') : KeepsOutside ws' f f' :=
  fun p k b hb hout => h p k b hb fun w hw => hout w (hws hw)

theorem KeepsOutside.of_eq (h : f' = f) : KeepsOutside ws f f' := by
  rw [h]
  exact refl_of (KeepsOutside ws) f

/-! ## Many writes -/

/-- What is in its place stays there if the writes are elsewhere. -/
theorem Write.IsIn.keepsOutside (h : w.IsIn f) (hkeeps : KeepsOutside ws f f')
    (hapart : ∀ v ∈ ws, w.Apart v) : w.IsIn f' := by
  refine isIn_iff.2 fun k hk => ?_
  have hlt : k - w.off < w.data.length := by
    obtain ⟨hl, hu⟩ := hk
    omega
  rw [List.getElem?_eq_getElem hlt]
  refine hkeeps w.path k _ ?_ fun v hv hpath => hapart v hv hpath.symm k hk
  rw [isIn_iff.1 h k hk, List.getElem?_eq_getElem hlt]

theorem keepsOutside_foldl_put (hws : ws' ⊆ ws) : KeepsOutside ws f (ws'.foldl put f) := by
  induction ws' generalizing f with
  | nil => exact refl_of (KeepsOutside ws) f
  | cons w ws' ih =>
    obtain ⟨hw, hws⟩ := List.cons_subset.1 hws
    exact trans_of (KeepsOutside ws) (keepsOutside_put fun k hk => ⟨w, hw, rfl, hk⟩) (ih hws)

/-- Of writes that are apart, the bytes of each are in their places in the end. -/
theorem isIn_foldl_put (hapart : ws.Pairwise Write.Apart) (hw : w ∈ ws) :
    w.IsIn (ws.foldl put f) := by
  induction ws generalizing f with
  | nil => cases hw
  | cons v ws ih =>
    obtain ⟨hv, hws⟩ := List.pairwise_cons.1 hapart
    rcases List.mem_cons.1 hw with rfl | hw
    · exact (isIn_put f w).keepsOutside (keepsOutside_foldl_put (List.Subset.refl ws)) hv
    · exact ih hws hw

end FileSystem
