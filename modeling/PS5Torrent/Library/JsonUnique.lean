import PS5Torrent.Library.JsonReader

/-!
# JSON texts are unambiguous

Where a value ends and what it is can be read off the bytes from its first one
on: two texts that begin alike, each followed by something that does not go on
with a number, are texts of one value, and what follows is the same
(`IsText.unique`). So no text of an object begins with another
(`IsText.unique_obj`).
-/

namespace Json

/-- A byte of a number. -/
def IsNumByte (b : UInt8) : Prop := Decimal.isDigit b ∨ b = code '-' ∨ b = code '.'

instance (b : UInt8) : Decidable (IsNumByte b) := inferInstanceAs (Decidable (_ ∨ _ ∨ _))

/-- What follows a value does not go on with a number. -/
def Follows (v : Value) (rest : List UInt8) : Prop :=
  ∀ text, v = .num text → ∀ b ∈ rest.head?, ¬IsNumByte b

/-- The kind of a value, by its first byte. -/
def kindOf (b : UInt8) : ℕ :=
  if b = code '"' then 0
  else if b = code '[' then 1
  else if b = code '{' then 2
  else if b = code 't' then 3
  else if b = code 'f' then 4
  else if IsNumByte b then 5
  else 6

def Value.kind : Value → ℕ
  | .str _ => 0
  | .arr _ => 1
  | .obj _ => 2
  | .bool true => 3
  | .bool false => 4
  | .num _ => 5

variable {v v' : Value} {l l' x x' s s' t t' : List UInt8}

/-! ## Numbers -/

theorem IsNumber.isNumByte (h : IsNumber t) : t ≠ [] ∧ ∀ b ∈ t, IsNumByte b := by
  obtain ⟨sign, int, frac, rfl, hsign, hint, hfrac⟩ := h
  constructor
  · intro hnil
    exact hint.ne_nil (List.append_eq_nil_iff.1 (List.append_eq_nil_iff.1 hnil).1).2
  · intro b hb
    rcases List.mem_append.1 hb with hb | hb
    · rcases List.mem_append.1 hb with hb | hb
      · rcases hsign with rfl | rfl
        · cases hb
        · exact Or.inr (Or.inl (List.mem_singleton.1 hb))
      · exact Or.inl (hint.isDigit b hb)
    · rcases hfrac with rfl | ⟨ds, rfl, -, hds⟩
      · cases hb
      · rcases List.mem_cons.1 hb with rfl | hb
        · exact Or.inr (Or.inr rfl)
        · exact Or.inl (hds b hb)

/-- A run of bytes of numbers that is followed by none is as long as it can be. -/
theorem takeWhile_isNumByte (ht : ∀ b ∈ t, IsNumByte b) (hx : ∀ b ∈ x.head?, ¬IsNumByte b) :
    (t ++ x).takeWhile (fun b => decide (IsNumByte b)) = t := by
  rw [List.takeWhile_append_of_pos fun b hb => decide_eq_true (ht b hb)]
  cases x with
  | nil => rw [List.takeWhile_nil, List.append_nil]
  | cons b x =>
    rw [List.takeWhile_cons_of_neg (by simpa using hx b rfl), List.append_nil]

/-! ## First bytes -/

theorem IsText.head (h : IsText v l) : ∃ b rest, l = b :: rest ∧ kindOf b = v.kind := by
  cases h with
  | true => exact ⟨_, _, rfl, rfl⟩
  | false => exact ⟨_, _, rfl, rfl⟩
  | str _ => exact ⟨_, _, rfl, rfl⟩
  | arr _ => exact ⟨_, _, rfl, rfl⟩
  | obj _ => exact ⟨_, _, rfl, rfl⟩
  | num hnum =>
    obtain ⟨hne, hbytes⟩ := hnum.isNumByte
    obtain ⟨b, rest, rfl⟩ := List.exists_cons_of_ne_nil hne
    refine ⟨b, rest, rfl, ?_⟩
    have hb := hbytes b List.mem_cons_self
    have hother (c : UInt8) (hc : ¬IsNumByte c) : b ≠ c := by
      rintro rfl
      exact hc hb
    rw [kindOf, if_neg (hother _ (by decide)), if_neg (hother _ (by decide)),
      if_neg (hother _ (by decide)), if_neg (hother _ (by decide)), if_neg (hother _ (by decide)),
      if_pos hb]
    rfl

theorem IsText.kind_eq (h : IsText v l) (h' : IsText v' l') (heq : l ++ x = l' ++ x') :
    v.kind = v'.kind := by
  obtain ⟨b, rest, rfl, hb⟩ := h.head
  obtain ⟨b', rest', rfl, hb'⟩ := h'.head
  rw [← hb, ← hb', (List.cons.inj heq).1]

/-! ## Strings -/

theorem IsBody.unique_append (h : IsBody s t) (h' : IsBody s' t')
    (heq : t ++ code '"' :: x = t' ++ code '"' :: x') : s = s' ∧ x = x' := by
  have hread := readString_of_isBody h x
  rw [heq, readString_of_isBody h' x', Option.some.injEq, Prod.mk.injEq] at hread
  exact ⟨hread.1.symm, hread.2.symm⟩

/-! ## Sequences -/

/-- What comes after an element: the end of the sequence, or a comma. -/
def IsTail (close : UInt8) (rest : List UInt8) : Prop :=
  rest.head? = some close ∨ rest.head? = some (code ',')

/-- What comes after the first element of a sequence. -/
def tailOf (close : UInt8) (x : List UInt8) : List (List UInt8) → List UInt8
  | [] => close :: x
  | text :: texts => code ',' :: (commas (text :: texts) ++ close :: x)

theorem commas_cons_append (close : UInt8) (x text : List UInt8) (texts : List (List UInt8)) :
    commas (text :: texts) ++ close :: x = text ++ tailOf close x texts := by
  cases texts with
  | nil => rfl
  | cons text' texts => rw [commas, tailOf, List.append_assoc, List.cons_append]

theorem isTail_tailOf (close : UInt8) (x : List UInt8) (texts : List (List UInt8)) :
    IsTail close (tailOf close x texts) := by
  cases texts with
  | nil => exact Or.inl rfl
  | cons text texts => exact Or.inr rfl

section Sequence

variable {α : Type} {R : α → List UInt8 → Prop} {close : UInt8} {as as' : List α}
  {texts texts' : List (List UInt8)}

/-- An empty sequence ends where another begins with an element. -/
theorem ne_commas_cons {text : List UInt8} (hne : text ≠ []) (hhead : text.head? ≠ some close) :
    close :: x ≠ commas (text :: texts) ++ close :: x' := by
  intro heq
  obtain ⟨b, text, rfl⟩ := List.exists_cons_of_ne_nil hne
  rw [commas_cons_append] at heq
  exact hhead (congrArg some (List.cons.inj heq).1.symm)

/-- Of elements that can be told apart from what follows them, a sequence can be told apart from
    what follows it. -/
theorem commas_unique (hclose : close ≠ code ',')
    (hhead : ∀ a text, R a text → text ≠ [] ∧ text.head? ≠ some close)
    (h : List.Forall₂ R as texts) (h' : List.Forall₂ R as' texts')
    (hunique : ∀ text ∈ texts, ∀ a a' text' y y', R a text → R a' text' → IsTail close y →
      IsTail close y' → text ++ y = text' ++ y' → a = a' ∧ y = y')
    (heq : commas texts ++ close :: x = commas texts' ++ close :: x') : as = as' ∧ x = x' := by
  induction h generalizing as' texts' with
  | nil =>
    cases h' with
    | nil => exact ⟨rfl, (List.cons.inj heq).2⟩
    | cons hR _ => exact absurd heq (ne_commas_cons (hhead _ _ hR).1 (hhead _ _ hR).2)
  | @cons a text as texts hR hs ih =>
    cases h' with
    | nil => exact absurd heq.symm (ne_commas_cons (hhead _ _ hR).1 (hhead _ _ hR).2)
    | @cons a' text' as' texts' hR' hs' =>
      rw [commas_cons_append, commas_cons_append] at heq
      rw [List.forall_mem_cons] at hunique
      obtain ⟨rfl, htail⟩ := hunique.1 a a' text' _ _ hR hR' (isTail_tailOf close x texts)
        (isTail_tailOf close x' texts') heq
      cases hs with
      | nil =>
        cases hs' with
        | nil => exact ⟨rfl, (List.cons.inj htail).2⟩
        | cons _ _ => exact absurd (List.cons.inj htail).1 hclose
      | cons hR₂ hs =>
        cases hs' with
        | nil => exact absurd (List.cons.inj htail).1.symm hclose
        | cons hR₂' hs' =>
          obtain ⟨has, hx⟩ := ih (.cons hR₂' hs') hunique.2 (List.cons.inj htail).2
          exact ⟨congrArg (a :: ·) has, hx⟩

end Sequence

/-! ## Values -/

theorem length_le_commas {texts : List (List UInt8)} {text : List UInt8} (h : text ∈ texts) :
    text.length ≤ (commas texts).length := by
  induction texts with
  | nil => cases h
  | cons text' texts ih =>
    have hlen := congrArg List.length (commas_cons_append 0 [] text' texts)
    rw [List.length_append, List.length_append, List.length_singleton] at hlen
    rcases List.mem_cons.1 h with rfl | h
    · cases texts with
      | nil => exact le_rfl
      | cons text' texts =>
        rw [commas, List.length_append]
        exact Nat.le_add_right _ _
    · have hle := ih h
      cases texts with
      | nil => cases h
      | cons text' texts =>
        rw [commas, List.length_append, List.length_cons]
        omega

theorem follows_of_isTail {close : UInt8} (hclose : ¬IsNumByte close) (h : IsTail close x) :
    Follows v x := by
  rintro text - b hb
  rcases h with h | h
  · rw [h] at hb
    exact Option.some.inj hb ▸ hclose
  · rw [h] at hb
    exact Option.some.inj hb ▸ (by decide)

theorem IsMember.head?_ne {member : List UInt8 × Value} (h : IsMember member l) :
    l ≠ [] ∧ l.head? ≠ some (code '}') := by
  cases h with
  | mk hkey h => exact ⟨List.cons_ne_nil _ _, by simp [code]⟩

theorem Value.kind_lt (v : Value) : v.kind < 6 := by
  cases v with
  | bool b => cases b <;> decide
  | _ => exact Nat.lt_of_succ_le (Nat.le_of_ble_eq_true rfl)

theorem IsText.head?_ne {close : UInt8} (h : IsText v l) (hclose : kindOf close = 6) :
    l ≠ [] ∧ l.head? ≠ some close := by
  obtain ⟨b, rest, rfl, hb⟩ := h.head
  refine ⟨List.cons_ne_nil b rest, fun heq => ?_⟩
  have hlt := v.kind_lt
  rw [← hb, Option.some.inj heq, hclose] at hlt
  omega

/-- Two texts that begin alike are texts of one value, if what follows does not go on with a
    number. -/
theorem IsText.unique (h : IsText v l) (h' : IsText v' l') (hx : Follows v x) (hx' : Follows v' x')
    (heq : l ++ x = l' ++ x') : v = v' ∧ x = x' := by
  induction hk : l.length using Nat.strong_induction_on generalizing v v' l l' x x' with
  | h k ih =>
    have hkind := h.kind_eq h' heq
    cases h with
    | true =>
      cases h' with
      | true => exact ⟨rfl, List.append_cancel_left heq⟩
      | _ => exact absurd hkind (by simp [Value.kind])
    | false =>
      cases h' with
      | false => exact ⟨rfl, List.append_cancel_left heq⟩
      | _ => exact absurd hkind (by simp [Value.kind])
    | num hnum =>
      cases h' with
      | num hnum' =>
        have htake := takeWhile_isNumByte hnum.isNumByte.2 (hx _ rfl)
        rw [heq, takeWhile_isNumByte hnum'.isNumByte.2 (hx' _ rfl)] at htake
        subst htake
        exact ⟨rfl, List.append_cancel_left heq⟩
      | _ => exact absurd hkind (by simp [Value.kind])
    | str hbody =>
      cases h' with
      | str hbody' =>
        rw [List.cons_append, List.cons_append, List.append_assoc, List.append_assoc] at heq
        obtain ⟨rfl, hrest⟩ := hbody.unique_append hbody' (List.cons.inj heq).2
        exact ⟨rfl, hrest⟩
      | _ => exact absurd hkind (by simp [Value.kind])
    | arr hvs =>
      cases h' with
      | arr hvs' =>
        rw [List.cons_append, List.cons_append, List.append_assoc, List.append_assoc] at heq
        obtain ⟨rfl, hrest⟩ := commas_unique (by decide) (fun v text h => h.head?_ne rfl) hvs hvs'
          (fun text htext v v' text' y y' h h' hy hy' heq => by
            have hlen := length_le_commas htext
            refine ih text.length ?_ h h' (follows_of_isTail (by decide) hy)
              (follows_of_isTail (by decide) hy') heq rfl
            rw [← hk, List.length_append, List.length_cons, List.length_singleton]
            omega) (List.cons.inj heq).2
        exact ⟨rfl, hrest⟩
      | _ => exact absurd hkind (by simp [Value.kind])
    | obj hmembers =>
      cases h' with
      | obj hmembers' =>
        rw [List.cons_append, List.cons_append, List.append_assoc, List.append_assoc] at heq
        obtain ⟨rfl, hrest⟩ := commas_unique (by decide) (fun m text h => h.head?_ne) hmembers hmembers'
          (fun text htext m m' text' y y' h h' hy hy' heq => by
            have hlen := length_le_commas htext
            rcases h with @⟨key, keyText, text, v, hkey, hv⟩
            rcases h' with ⟨hkey', hv'⟩
            rw [List.cons_append, List.cons_append, List.append_assoc, List.append_assoc] at heq
            obtain ⟨rfl, hcolon⟩ := hkey.unique_append hkey' (List.cons.inj heq).2
            have hlt : text.length < k := by
              simp only [List.length_append, List.length_cons] at hlen hk
              omega
            obtain ⟨rfl, hrest⟩ := ih text.length hlt hv hv' (follows_of_isTail (by decide) hy)
              (follows_of_isTail (by decide) hy') (List.cons.inj hcolon).2 rfl
            exact ⟨rfl, hrest⟩) (List.cons.inj heq).2
        exact ⟨rfl, hrest⟩
      | _ => exact absurd hkind (by simp [Value.kind])

/-- No text of an object begins with another. -/
theorem IsText.unique_obj {ms ms' : List (List UInt8 × Value)} (h : IsText (.obj ms) l)
    (h' : IsText (.obj ms') l') (hle : l <+: l') : l = l' ∧ ms = ms' := by
  obtain ⟨x, rfl⟩ := hle
  have hfollows {ms : List (List UInt8 × Value)} {x : List UInt8} : Follows (.obj ms) x :=
    fun text htext => by cases htext
  obtain ⟨hv, hx⟩ := h.unique h' hfollows hfollows (List.append_nil (l ++ x)).symm
  rw [hx, List.append_nil]
  exact ⟨rfl, Value.obj.inj hv⟩

/-! ## Control characters -/

theorem IsNumByte.le {b : UInt8} (h : IsNumByte b) : 0x20 ≤ b := by
  rcases h with h | rfl | rfl
  · have hdigit := (Decimal.isDigit_iff.1 h).1
    exact UInt8.le_iff_toNat_le.2 ((by decide : 32 ≤ 48).trans hdigit)
  · decide
  · decide

theorem forall₂_mem {α β : Type} {R : α → β → Prop} {as : List α} {bs : List β} {b : β}
    (h : List.Forall₂ R as bs) (hb : b ∈ bs) : ∃ a ∈ as, R a b := by
  induction h with
  | nil => cases hb
  | cons hR _ ih =>
    rcases List.mem_cons.1 hb with rfl | hb
    · exact ⟨_, List.mem_cons_self, hR⟩
    · obtain ⟨a, ha, hR⟩ := ih hb
      exact ⟨a, List.mem_cons_of_mem _ ha, hR⟩

/-- No control character is in a text. -/
theorem IsText.not_mem {b : UInt8} (hb : b < 0x20) (h : IsText v l) : b ∉ l := by
  have hplain (c : Char) (hc : 0x20 ≤ code c) : b ≠ code c := by
    rintro rfl
    exact absurd hb (UInt8.not_lt.2 hc)
  have hlits (cs : List Char) (hcs : cs.all (0x20 ≤ code ·)) : b ∉ cs.map code := by
    intro hmem
    obtain ⟨c, hc, rfl⟩ := List.mem_map.1 hmem
    exact hplain c (of_decide_eq_true (List.all_eq_true.1 hcs c hc)) rfl
  induction hk : l.length using Nat.strong_induction_on generalizing v l with
  | h k ih =>
    cases h with
    | true => exact hlits ['t', 'r', 'u', 'e'] rfl
    | false => exact hlits ['f', 'a', 'l', 's', 'e'] rfl
    | num hnum => exact fun hmem => UInt8.not_lt.2 (hnum.isNumByte.2 b hmem).le hb
    | str hbody =>
      rw [List.mem_append, List.mem_cons, List.mem_singleton]
      rintro ((hmem | hmem) | hmem)
      · exact hplain '"' (by decide) hmem
      · exact UInt8.not_lt.2 (hbody.le_of_mem hmem) hb
      · exact hplain '"' (by decide) hmem
    | arr hvs =>
      rw [List.length_append, List.length_cons, List.length_singleton] at hk
      rw [List.mem_append, List.mem_cons, List.mem_singleton]
      rintro ((hmem | hmem) | hmem)
      · exact hplain '[' (by decide) hmem
      · refine not_mem_commas (hplain ',' (by decide)) (fun text htext => ?_) hmem
        obtain ⟨v, -, hv⟩ := forall₂_mem hvs htext
        have hlen := length_le_commas htext
        exact ih text.length (by omega) hv rfl
      · exact hplain ']' (by decide) hmem
    | obj hmembers =>
      rw [List.length_append, List.length_cons, List.length_singleton] at hk
      rw [List.mem_append, List.mem_cons, List.mem_singleton]
      rintro ((hmem | hmem) | hmem)
      · exact hplain '{' (by decide) hmem
      · refine not_mem_commas (hplain ',' (by decide)) (fun text htext => ?_) hmem
        obtain ⟨member, -, hmember⟩ := forall₂_mem hmembers htext
        have hlen := length_le_commas htext
        rcases hmember with @⟨key, keyText, text, v, hkey, hv⟩
        rw [List.length_append, List.length_cons, List.length_cons, List.length_cons] at hlen
        rw [List.mem_append, List.mem_cons, List.mem_cons, List.mem_cons]
        rintro ((hmem | hmem) | hmem | hmem | hmem)
        · exact hplain '"' (by decide) hmem
        · exact UInt8.not_lt.2 (hkey.le_of_mem hmem) hb
        · exact hplain '"' (by decide) hmem
        · exact hplain ':' (by decide) hmem
        · exact ih text.length (by omega) hv rfl hmem
      · exact hplain '}' (by decide) hmem

end Json
