import PS5Torrent.Library.Decimal

/-!
# JSON texts

The grammar of JSON on bytes, without optional white space: `IsText v l` says
that `l` is a text of the value `v`. A string is a list of bytes, as it is
written: its encoding is not looked at, and an escape stands for the byte of
its character.

* `IsBody`: the inside of a string literal, with what it denotes;
* `IsMember`: a member of an object.
-/

namespace Json

/-- A value. A number is kept as it is written. -/
inductive Value
  | bool (b : Bool)
  | num (text : List UInt8)
  | str (s : List UInt8)
  | arr (vs : List Value)
  | obj (members : List (List UInt8 × Value))

/-- The ASCII code of a character. -/
def code (c : Char) : UInt8 := UInt8.ofNat c.toNat

/-- The hexadecimal digit for a value below 16. -/
def hexDigit (n : ℕ) : UInt8 := if n < 10 then UInt8.ofNat (48 + n) else UInt8.ofNat (87 + n)

/-- A byte that stands for itself in a string. -/
def Plain (b : UInt8) : Prop := 0x20 ≤ b ∧ b ≠ code '"' ∧ b ≠ code '\\'

instance (b : UInt8) : Decidable (Plain b) := inferInstanceAs (Decidable (_ ∧ _ ∧ _))

/-- What is written for a byte in a string, and the byte. -/
inductive IsChar : UInt8 → List UInt8 → Prop
  | plain {b : UInt8} (hb : Plain b) : IsChar b [b]
  | quote : IsChar (code '"') [code '\\', code '"']
  | backslash : IsChar (code '\\') [code '\\', code '\\']
  | backspace : IsChar 8 [code '\\', code 'b']
  | tab : IsChar 9 [code '\\', code 't']
  | newline : IsChar 10 [code '\\', code 'n']
  | formFeed : IsChar 12 [code '\\', code 'f']
  | carriageReturn : IsChar 13 [code '\\', code 'r']
  | control {b : UInt8} (hb : b < 0x20) :
    IsChar b [code '\\', code 'u', code '0', code '0', hexDigit (b.toNat / 16), hexDigit (b.toNat % 16)]

/-- What is written for the bytes of a string. -/
inductive IsBody : List UInt8 → List UInt8 → Prop
  | nil : IsBody [] []
  | cons {b : UInt8} {s text rest : List UInt8} (head : IsChar b text) (tail : IsBody s rest) :
    IsBody (b :: s) (text ++ rest)

/-- A number: an integer part with an optional sign, and an optional fraction. -/
def IsNumber (text : List UInt8) : Prop :=
  ∃ sign int frac, text = sign ++ int ++ frac ∧ (sign = [] ∨ sign = [code '-']) ∧
    Decimal.IsCanonical int ∧ (frac = [] ∨ ∃ ds, frac = code '.' :: ds ∧ ds ≠ [] ∧
      ∀ b ∈ ds, Decimal.isDigit b)

/-- Texts with commas between them. -/
def commas : List (List UInt8) → List UInt8
  | [] => []
  | [text] => text
  | text :: rest :: texts => text ++ code ',' :: commas (rest :: texts)

mutual

/-- The texts of a value. -/
inductive IsText : Value → List UInt8 → Prop
  | true : IsText (.bool true) [code 't', code 'r', code 'u', code 'e']
  | false : IsText (.bool false) [code 'f', code 'a', code 'l', code 's', code 'e']
  | num {text : List UInt8} (h : IsNumber text) : IsText (.num text) text
  | str {s text : List UInt8} (h : IsBody s text) : IsText (.str s) (code '"' :: text ++ [code '"'])
  | arr {vs : List Value} {texts : List (List UInt8)} (h : List.Forall₂ IsText vs texts) :
    IsText (.arr vs) (code '[' :: commas texts ++ [code ']'])
  | obj {members : List (List UInt8 × Value)} {texts : List (List UInt8)}
    (h : List.Forall₂ IsMember members texts) :
    IsText (.obj members) (code '{' :: commas texts ++ [code '}'])

/-- The texts of a member of an object. -/
inductive IsMember : List UInt8 × Value → List UInt8 → Prop
  | mk {key keyText text : List UInt8} {v : Value} (hkey : IsBody key keyText) (h : IsText v text) :
    IsMember (key, v) (code '"' :: keyText ++ code '"' :: code ':' :: text)

end

variable {s t s' t' : List UInt8} {b : UInt8}

/-! ## Strings -/

theorem IsBody.append (h : IsBody s t) (h' : IsBody s' t') : IsBody (s ++ s') (t ++ t') := by
  induction h with
  | nil => exact h'
  | cons head _ ih =>
    rw [List.append_assoc]
    exact .cons head ih

/-- Plain bytes stand for themselves. -/
theorem isBody_of_plain (h : ∀ b ∈ s, Plain b) : IsBody s s := by
  induction s with
  | nil => exact .nil
  | cons b s ih =>
    rw [List.forall_mem_cons] at h
    exact .cons (.plain h.1) (ih h.2)

/-- A text is added at the end. -/
theorem commas_append_singleton (texts : List (List UInt8)) (text : List UInt8) :
    commas (texts ++ [text]) = commas texts ++ ((if texts.length ≠ 0 then [code ','] else []) ++ text) := by
  induction texts with
  | nil => rfl
  | cons text' texts ih =>
    cases texts with
    | nil => rfl
    | cons text'' texts =>
      rw [List.cons_append, List.cons_append, commas, ← List.cons_append, ih, commas]
      simp

theorem not_mem_commas {texts : List (List UInt8)} (hb : b ≠ code ',')
    (h : ∀ text ∈ texts, b ∉ text) : b ∉ commas texts := by
  induction texts with
  | nil => exact List.not_mem_nil
  | cons text texts ih =>
    rw [List.forall_mem_cons] at h
    cases texts with
    | nil => exact h.1
    | cons text' texts =>
      rw [commas, List.mem_append, List.mem_cons]
      rintro (hmem | hmem | hmem)
      · exact h.1 hmem
      · exact hb hmem
      · exact ih h.2 hmem

/-! ## Numbers -/

theorem isNumber_print (n : ℕ) : IsNumber (Decimal.print n) :=
  ⟨[], Decimal.print n, [], by simp, .inl rfl, Decimal.isCanonical_print n, .inl rfl⟩

theorem isNumber_neg_print (n : ℕ) : IsNumber (code '-' :: Decimal.print n) :=
  ⟨[code '-'], Decimal.print n, [], by simp, .inr rfl, Decimal.isCanonical_print n, .inl rfl⟩

end Json
