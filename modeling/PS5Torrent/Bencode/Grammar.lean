import PS5Torrent.Bencode.Fuel

/-!
# The language of the parser

Bencoded values as a grammar (`Parses`), over how integers and strings are
read. Read as the format has them (`WellFormedInt`, `WellFormedStr`), an
integer has at least one digit, is closed by `e`, and fits `int64_t`; a string
has a length of at least one digit, and that many bytes. The parser reads them
loosely (`LooseInt`, `LooseStr`): digits may be missing, an integer may not be
closed and then reads as `0`, and numerals wrap around. With loose numerals the
grammar is exactly the parser's language (`bcodeParse_eq_some_iff`), so that
the parser is right about the inputs that begin with no value with such a
numeral (`bcodeParse_eq_some_iff_denotes_iff`).
-/

namespace PS5Torrent.Bencode

open Decimal Bencoding

/-! ## The grammar -/

/-- What is read: a value, the rest of a list, or the rest of a dictionary. -/
inductive Item
  | value (node : BcodeNode)
  | items (nodes : List BcodeNode)
  | entries (entries : List (Bytes × BcodeNode))

/-- What is read from the start of an input, and the rest of the input after it.
    `int` reads an integer after its `i`, `str` reads a string. -/
inductive Parses (int : Bytes → ℤ → Bytes → Prop) (str : Bytes → Bytes → Bytes → Prop) :
    Item → Bytes → Bytes → Prop
  | int {n : ℤ} {input rest : Bytes} : int input n rest →
      Parses int str (.value (.int n)) (intMark :: input) rest
  | str {d : UInt8} {s input rest : Bytes} : isDigit d → str (d :: input) s rest →
      Parses int str (.value (.str s)) (d :: input) rest
  | list {nodes : List BcodeNode} {input rest : Bytes} :
      Parses int str (.items nodes) input rest →
      Parses int str (.value (.list nodes)) (listMark :: input) rest
  | dict {entries : List (Bytes × BcodeNode)} {input rest : Bytes} :
      Parses int str (.entries entries) input rest →
      Parses int str (.value (.dict entries)) (dictMark :: input) rest
  | itemsEnd {rest : Bytes} : Parses int str (.items []) (endMark :: rest) rest
  | item {b : UInt8} {node : BcodeNode} {nodes : List BcodeNode} {input mid rest : Bytes} :
      b ≠ endMark → Parses int str (.value node) (b :: input) mid →
      Parses int str (.items nodes) mid rest →
      Parses int str (.items (node :: nodes)) (b :: input) rest
  | entriesEnd {rest : Bytes} : Parses int str (.entries []) (endMark :: rest) rest
  | entry {b : UInt8} {key : Bytes} {node : BcodeNode} {entries : List (Bytes × BcodeNode)}
      {input mid mid' rest : Bytes} :
      b ≠ endMark → str (b :: input) key mid → Parses int str (.value node) mid mid' →
      Parses int str (.entries entries) mid' rest →
      Parses int str (.entries ((key, node) :: entries)) (b :: input) rest

/-- The optional sign of an integer. -/
def sign (neg : Bool) : Bytes := if neg then [minus] else []

/-- An integer with its sign. -/
def signed (neg : Bool) (n : ℕ) : ℤ := if neg then -n else n

/-- An integer of the format, after its `i`. -/
inductive WellFormedInt : Bytes → ℤ → Bytes → Prop
  | mk {neg : Bool} {ds rest : Bytes} : ds ≠ [] → (∀ b ∈ ds, isDigit b) →
      INT64_MIN ≤ signed neg (value ds) → signed neg (value ds) ≤ INT64_MAX →
      WellFormedInt (sign neg ++ (ds ++ endMark :: rest)) (signed neg (value ds)) rest

/-- A string of the format. -/
inductive WellFormedStr : Bytes → Bytes → Bytes → Prop
  | mk {ds s rest : Bytes} : ds ≠ [] → (∀ b ∈ ds, isDigit b) → value ds = s.length →
      WellFormedStr (ds ++ colon :: (s ++ rest)) s rest

/-- The whole of a text is a bencoded value, which denotes the tree. -/
def Denotes (bs : Bytes) (node : BcodeNode) : Prop :=
  Parses WellFormedInt WellFormedStr (.value node) bs []

/-- An integer as the parser reads it, after its `i`: with or without digits, and of any
    size if it is closed; `0` if it is not. -/
inductive LooseInt : Bytes → ℤ → Bytes → Prop
  | closed {neg : Bool} {ds rest : Bytes} : (∀ b ∈ ds, isDigit b) →
      LooseInt (sign neg ++ (ds ++ endMark :: rest)) (toInt64 (signed neg (value ds))) rest
  | unclosed {neg : Bool} {ds rest : Bytes} : (∀ b ∈ ds, isDigit b) →
      (∀ b ∈ rest.head?, ¬isDigit b ∧ b ≠ endMark) →
      (neg = false → (ds ++ rest).head? ≠ some minus) →
      LooseInt (sign neg ++ (ds ++ rest)) 0 rest

/-- A string as the parser reads it: its length has any number of digits, and counts up to
    wrapping around. -/
inductive LooseStr : Bytes → Bytes → Bytes → Prop
  | mk {ds s rest : Bytes} : (∀ b ∈ ds, isDigit b) → toSize (value ds) = s.length →
      LooseStr (ds ++ colon :: (s ++ rest)) s rest

section Grammar

variable {int int' : Bytes → ℤ → Bytes → Prop} {str str' : Bytes → Bytes → Bytes → Prop} {x : Item}
  {input rest : Bytes}

/-- Where on inputs of bounded length the numerals of one language are those of another, so
    are the values. -/
theorem Parses.imp {L : ℕ}
    (hint : ∀ {input n rest}, input.length ≤ L → int input n rest →
      int' input n rest ∧ rest.length ≤ input.length)
    (hstr : ∀ {input s rest}, input.length ≤ L → str input s rest →
      str' input s rest ∧ rest.length ≤ input.length)
    (h : Parses int str x input rest) (hL : input.length ≤ L) :
    Parses int' str' x input rest ∧ rest.length ≤ input.length := by
  induction h with
  | int h =>
    obtain ⟨hn, hle⟩ := hint ((Nat.le_succ _).trans hL) h
    exact ⟨.int hn, hle.trans (Nat.le_succ _)⟩
  | str hd h =>
    obtain ⟨hs, hle⟩ := hstr hL h
    exact ⟨.str hd hs, hle⟩
  | list _ ih =>
    obtain ⟨hx, hle⟩ := ih ((Nat.le_succ _).trans hL)
    exact ⟨.list hx, hle.trans (Nat.le_succ _)⟩
  | dict _ ih =>
    obtain ⟨hx, hle⟩ := ih ((Nat.le_succ _).trans hL)
    exact ⟨.dict hx, hle.trans (Nat.le_succ _)⟩
  | itemsEnd => exact ⟨.itemsEnd, Nat.le_succ _⟩
  | item hb _ _ ihv ih =>
    obtain ⟨hval, hle⟩ := ihv hL
    obtain ⟨hx, hle'⟩ := ih (hle.trans hL)
    exact ⟨.item hb hval hx, hle'.trans hle⟩
  | entriesEnd => exact ⟨.entriesEnd, Nat.le_succ _⟩
  | entry hb h _ _ ihv ih =>
    obtain ⟨hkey, hle⟩ := hstr hL h
    obtain ⟨hval, hle'⟩ := ihv (hle.trans hL)
    obtain ⟨hx, hle''⟩ := ih (hle'.trans (hle.trans hL))
    exact ⟨.entry hb hkey hval hx, hle''.trans (hle'.trans hle)⟩

/-- Where numerals are read without regard to what follows them, so are values. -/
theorem Parses.exists_prefix
    (hint : ∀ {input n rest}, int input n rest →
      ∃ bs, input = bs ++ rest ∧ ∀ rest', int (bs ++ rest') n rest')
    (hstr : ∀ {input s rest}, str input s rest →
      ∃ b bs, input = b :: bs ++ rest ∧ ∀ rest', str (b :: bs ++ rest') s rest')
    (h : Parses int str x input rest) :
    ∃ b bs, input = b :: bs ++ rest ∧ ∀ rest', Parses int str x (b :: bs ++ rest') rest' := by
  induction h with
  | int h =>
    obtain ⟨bs, rfl, hbs⟩ := hint h
    exact ⟨intMark, bs, rfl, fun rest' => .int (hbs rest')⟩
  | @str d s input rest hd h =>
    obtain ⟨b, bs, heq, hbs⟩ := hstr h
    rw [List.cons_append] at heq
    obtain ⟨rfl, rfl⟩ := List.cons.inj heq
    exact ⟨d, bs, rfl, fun rest' => .str hd (hbs rest')⟩
  | list _ ih =>
    obtain ⟨b, bs, rfl, hbs⟩ := ih
    exact ⟨listMark, b :: bs, rfl, fun rest' => .list (hbs rest')⟩
  | dict _ ih =>
    obtain ⟨b, bs, rfl, hbs⟩ := ih
    exact ⟨dictMark, b :: bs, rfl, fun rest' => .dict (hbs rest')⟩
  | itemsEnd => exact ⟨endMark, [], rfl, fun _ => .itemsEnd⟩
  | @item c node nodes input mid rest hb _ _ ihv ih =>
    obtain ⟨b', bs', rfl, hbs'⟩ := ih
    obtain ⟨b, bs, heq, hbs⟩ := ihv
    rw [List.cons_append] at heq
    obtain ⟨rfl, rfl⟩ := List.cons.inj heq
    refine ⟨c, bs ++ b' :: bs', by simp, fun rest' => ?_⟩
    have hhead := hbs (b' :: bs' ++ rest')
    rw [List.cons_append, ← List.append_assoc] at hhead
    exact .item hb hhead (hbs' rest')
  | entriesEnd => exact ⟨endMark, [], rfl, fun _ => .entriesEnd⟩
  | @entry c key node entries input mid mid' rest hb h _ _ ihv ih =>
    obtain ⟨b'', bs'', rfl, hbs''⟩ := ih
    obtain ⟨b', bs', rfl, hbs'⟩ := ihv
    obtain ⟨b, bs, heq, hbs⟩ := hstr h
    rw [List.cons_append] at heq
    obtain ⟨rfl, rfl⟩ := List.cons.inj heq
    refine ⟨c, bs ++ b' :: bs' ++ b'' :: bs'', by simp, fun rest' => ?_⟩
    have hkey := hbs (b' :: bs' ++ (b'' :: bs'' ++ rest'))
    have hval := hbs' (b'' :: bs'' ++ rest')
    simp only [List.cons_append, List.append_assoc] at hkey hval ⊢
    exact .entry hb hkey hval (hbs'' rest')

end Grammar

/-! ## Numerals of the format -/

variable {data input rest s : Bytes} {pos pos' : ℕ} {n : ℤ}

theorem WellFormedInt.exists_prefix (h : WellFormedInt input n rest) :
    ∃ bs, input = bs ++ rest ∧ ∀ rest', WellFormedInt (bs ++ rest') n rest' := by
  obtain @⟨neg, ds, _, hne, hds, hl, hu⟩ := h
  refine ⟨sign neg ++ (ds ++ [endMark]), by simp, fun rest' => ?_⟩
  have h : WellFormedInt (sign neg ++ (ds ++ endMark :: rest')) (signed neg (value ds)) rest' :=
    .mk hne hds hl hu
  simpa using h

theorem WellFormedStr.exists_prefix (h : WellFormedStr input s rest) :
    ∃ b bs, input = b :: bs ++ rest ∧ ∀ rest', WellFormedStr (b :: bs ++ rest') s rest' := by
  obtain @⟨ds, s, _, hne, hds, hval⟩ := h
  obtain ⟨d, ds, rfl⟩ := List.exists_cons_of_ne_nil hne
  refine ⟨d, ds ++ colon :: s, by simp, fun rest' => ?_⟩
  have h : WellFormedStr (d :: ds ++ colon :: (s ++ rest')) s rest' := .mk hne hds hval
  simpa using h

theorem WellFormedInt.loose (h : WellFormedInt input n rest) : LooseInt input n rest := by
  obtain @⟨neg, ds, _, -, hds, hl, hu⟩ := h
  have hclosed : LooseInt (sign neg ++ (ds ++ endMark :: rest)) _ rest := .closed hds
  rwa [toInt64_of_mem hl hu] at hclosed

theorem WellFormedStr.loose (hlen : input.length ≤ PTRDIFF_MAX) (h : WellFormedStr input s rest) :
    LooseStr input s rest := by
  obtain ⟨-, hds, hval⟩ := h
  refine .mk hds ?_
  rw [hval, toSize_of_lt]
  simp only [PTRDIFF_MAX, List.length_append, List.length_cons] at hlen
  omega

/-! ## Numerals of the parser -/

/-- The rest of the data from a position on. -/
structure At (data : Bytes) (pos : ℕ) (input : Bytes) : Prop where
  drop_eq : data.drop pos = input
  length_eq : pos + input.length = data.length

theorem At.append {xs : Bytes} (h : At data pos (xs ++ rest)) : At data (pos + xs.length) rest where
  drop_eq := drop_of_drop_append h.drop_eq
  length_eq := by rw [← h.length_eq, List.length_append, add_assoc]

theorem At.tail {b : UInt8} (h : At data pos (b :: rest)) : At data (pos + 1) rest :=
  @At.append data rest pos [b] h

theorem At.head {b : UInt8} (h : At data pos (b :: rest)) : data[pos]? = some b :=
  getElem?_of_drop h.drop_eq

theorem At.head? (h : At data pos input) : data[pos]? = input.head? := by
  rw [← h.drop_eq, List.head?_drop]

/-- Scanning reads the digits at the start. -/
theorem scanDigits_eq {α : Type*} (push : α → ℕ → α) (bs : Bytes) (acc : α) (pos : ℕ) :
    scanDigits push bs acc pos =
      ((bs.takeWhile isDigit).foldl (fun a d => push a (digitVal d)) acc,
        pos + (bs.takeWhile isDigit).length) := by
  induction bs generalizing acc pos with
  | nil => rfl
  | cons b bs ih =>
    rw [scanDigits]
    split
    case isTrue hb =>
      rw [ih, List.takeWhile_cons_of_pos hb, List.foldl_cons, List.length_cons]
      congr 1
      omega
    case isFalse hb =>
      rw [List.takeWhile_cons_of_neg hb]
      rfl

theorem takeWhile_digits {ds : Bytes} (hds : ∀ b ∈ ds, isDigit b)
    (hrest : ∀ b ∈ rest.head?, ¬isDigit b) : (ds ++ rest).takeWhile isDigit = ds := by
  rw [List.takeWhile_append_of_pos hds]
  cases rest with
  | nil => simp
  | cons b rest => rw [List.takeWhile_cons_of_neg (hrest b rfl), List.append_nil]

theorem exists_digits (bs : Bytes) : ∃ ds rest, bs = ds ++ rest ∧ (∀ b ∈ ds, isDigit b) ∧
    ∀ b ∈ rest.head?, ¬isDigit b := by
  refine ⟨bs.takeWhile isDigit, bs.dropWhile isDigit, List.takeWhile_append_dropWhile.symm,
    fun b hb => List.mem_takeWhile_imp hb, fun b hb => ?_⟩
  have hne := List.ne_nil_of_mem (List.mem_of_mem_head? hb)
  rw [List.head?_eq_some_head hne, Option.mem_some_iff] at hb
  rw [← hb, List.head_dropWhile_not isDigit hne]
  exact Bool.false_ne_true

/-- Scanning the digits of an integer. -/
theorem scanDigits_int {ds : Bytes} (hds : ∀ b ∈ ds, isDigit b)
    (hrest : ∀ b ∈ rest.head?, ¬isDigit b) (hat : At data pos (ds ++ rest)) :
    scanDigits (fun (v : ℤ) d => toInt64 (v * 10 + (d : ℕ))) (data.drop pos) 0 pos =
      (toInt64 (value ds), pos + ds.length) := by
  have hfold := foldl_toInt64 ds 0
  rw [Nat.cast_zero, toInt64_of_mem (by decide) (by decide)] at hfold
  rw [hat.drop_eq, scanDigits_eq, takeWhile_digits hds hrest, hfold]
  rfl

/-- An integer of the parser: closed by `e`, or `0`. -/
theorem parseInteger_eq {neg : Bool} {ds : Bytes} (hds : ∀ b ∈ ds, isDigit b)
    (hrest : ∀ b ∈ rest.head?, ¬isDigit b)
    (hsign : neg = false → (ds ++ rest).head? ≠ some minus)
    (hat : At data pos (intMark :: (sign neg ++ (ds ++ rest)))) :
    parseInteger data pos =
      if rest.head? = some endMark then
        (toInt64 (signed neg (value ds)), pos + 1 + (sign neg).length + ds.length + 1)
      else (0, pos + 1 + (sign neg).length + ds.length) := by
  have hbody := hat.tail.append
  have hscan := scanDigits_int hds hrest hbody
  have hend := hbody.append.head?
  have hmark : endMark = chr 'e' := by decide
  rw [hmark, parseInteger, hat.head]
  dsimp only
  rw [if_neg (by decide), hat.tail.head?]
  cases neg with
  | true =>
    have hminus : (sign true ++ (ds ++ rest)).head? = some minus := rfl
    have hneg : toInt64 (-toInt64 (value ds)) = toInt64 (signed true (value ds)) := by
      rw [toInt64, toInt64, toInt64, Int.bmod_neg_bmod]
      rfl
    have hlen : (sign true).length = 1 := rfl
    rw [hlen] at hscan hend ⊢
    rw [hminus]
    dsimp only
    rw [if_pos (by decide : minus = chr '-'), hscan]
    dsimp only
    rw [hend, if_pos (by decide : minus = chr '-'), hneg, ite_not]
  | false =>
    have hlen : (sign false).length = 0 := rfl
    have hnil : sign false ++ (ds ++ rest) = ds ++ rest := rfl
    rw [hlen, Nat.add_zero] at hscan hend ⊢
    rw [hnil]
    cases hbs : (ds ++ rest).head? with
    | none =>
      obtain ⟨rfl, rfl⟩ := List.append_eq_nil_iff.1 (List.head?_eq_none_iff.1 hbs)
      rfl
    | some c =>
      have hc : ¬c = chr '-' := fun h => hsign rfl (by rw [hbs, h]; rfl)
      dsimp only
      rw [if_neg hc, hscan]
      dsimp only
      rw [hend, if_neg hc, ite_not]
      rfl

/-- Digits before the closing `e` do not begin with a sign. -/
theorem head?_digits_ne_minus {ds : Bytes} (hds : ∀ b ∈ ds, isDigit b) :
    (ds ++ endMark :: rest).head? ≠ some minus := by
  intro hhead
  cases ds with
  | nil => exact absurd (Option.some.inj hhead) (by decide)
  | cons d ds =>
    have hdigit := hds d List.mem_cons_self
    rw [Option.some.inj hhead] at hdigit
    exact absurd hdigit (by decide)

/-- The parser reads an integer of its language. -/
theorem LooseInt.parseInteger (h : LooseInt input n rest) (hat : At data pos (intMark :: input)) :
    ∃ pos', parseInteger data pos = (n, pos') ∧ At data pos' rest := by
  cases h with
  | @closed neg ds _ hds =>
    have hparse := parseInteger_eq hds (by simp; decide) (fun _ => head?_digits_ne_minus hds) hat
    exact ⟨_, hparse.trans (if_pos rfl), hat.tail.append.append.tail⟩
  | @unclosed neg ds _ hds hrest hsign =>
    have hparse := parseInteger_eq hds (fun b hb => (hrest b hb).1) hsign hat
    exact ⟨_, hparse.trans (if_neg fun hmark => (hrest _ hmark).2 rfl), hat.tail.append.append⟩

/-- After `i`, the parser always reads an integer of its language. -/
theorem exists_looseInt (hat : At data pos (intMark :: input)) :
    ∃ n rest, LooseInt input n rest := by
  obtain ⟨neg, body, hinput, hsign⟩ : ∃ neg body, input = sign neg ++ body ∧
      (neg = false → body.head? ≠ some minus) := by
    by_cases hminus : input.head? = some minus
    · obtain ⟨body, rfl⟩ := List.head?_eq_some_iff.1 hminus
      exact ⟨true, body, rfl, by simp⟩
    · exact ⟨false, input, rfl, fun _ => hminus⟩
  obtain ⟨ds, rest, rfl, hds, hrest⟩ := exists_digits body
  subst hinput
  by_cases hmark : rest.head? = some endMark
  · obtain ⟨rest, rfl⟩ := List.head?_eq_some_iff.1 hmark
    exact ⟨_, rest, .closed hds⟩
  · exact ⟨0, rest, .unclosed hds (fun b hb => ⟨hrest b hb, fun h => hmark (h ▸ hb)⟩) hsign⟩

/-- Scanning the length of a string. -/
theorem scanDigits_len {ds : Bytes} (hds : ∀ b ∈ ds, isDigit b)
    (hrest : ∀ b ∈ rest.head?, ¬isDigit b) (hat : At data pos (ds ++ rest)) :
    scanDigits (fun n d => toSize (n * 10 + d)) (data.drop pos) 0 pos =
      (toSize (value ds), pos + ds.length) := by
  have hfold := foldl_toSize ds 0
  rw [toSize_of_lt (by norm_num)] at hfold
  rw [hat.drop_eq, scanDigits_eq, takeWhile_digits hds hrest, hfold]
  rfl

/-- The parser reads a string of its language. -/
theorem LooseStr.parseString (hlen : data.length ≤ PTRDIFF_MAX) (h : LooseStr input s rest)
    (hat : At data pos input) : ∃ pos', parseString data pos = some (s, pos') ∧ At data pos' rest := by
  obtain @⟨ds, s, _, hds, hval⟩ := h
  have hscan := scanDigits_len hds (by simp; decide) hat
  have hcolon := hat.append
  have hstr := hcolon.tail
  have hlength := hstr.length_eq
  rw [List.length_append] at hlength
  simp only [PTRDIFF_MAX] at hlen
  refine ⟨_, ?_, hstr.append⟩
  rw [Bencode.parseString, hscan]
  dsimp only
  rw [hval, if_neg (by rw [hcolon.head]; decide), if_neg, if_neg, hstr.drop_eq, List.take_left]
  · simp only [PTRDIFF_MAX]
    omega
  · rw [toSize_of_lt (by omega)]
    omega

/-- A string that the parser reads is of its language. -/
theorem looseStr_of_parseString (hlen : data.length ≤ PTRDIFF_MAX) (hat : At data pos input)
    (h : parseString data pos = some (s, pos')) :
    ∃ rest, LooseStr input s rest ∧ At data pos' rest := by
  obtain ⟨ds, tail, rfl, hds, htail⟩ := exists_digits input
  have hafter := hat.append
  rw [Bencode.parseString, scanDigits_len hds htail hat] at h
  dsimp only at h
  split_ifs at h with hcolon hbound hmax
  obtain ⟨rfl, rfl⟩ := Prod.mk.inj (Option.some.inj h)
  rw [not_not, hafter.head?] at hcolon
  obtain ⟨body, rfl⟩ := List.head?_eq_some_iff.1 hcolon
  have hbody := hafter.tail
  have hlength := hbody.length_eq
  simp only [PTRDIFF_MAX] at hlen hmax
  rw [toSize_of_lt (by omega)] at hbound
  have htake : (body.take (toSize (value ds))).length = toSize (value ds) :=
    List.length_take_of_le (by omega)
  rw [hbody.drop_eq]
  have hsplit := (List.take_append_drop (toSize (value ds)) body).symm
  refine ⟨body.drop (toSize (value ds)), ?_, ?_⟩
  · have hstr : LooseStr (ds ++ colon :: (body.take (toSize (value ds)) ++
        body.drop (toSize (value ds)))) (body.take (toSize (value ds))) _ := .mk hds htake.symm
    rwa [← hsplit] at hstr
  · rw [hsplit] at hbody
    have hrest := hbody.append
    rwa [htake] at hrest

/-! ## The parser -/

/-- The parser reads a thing between two positions. -/
def Item.Read (data : Bytes) (pos pos' : ℕ) : Item → Prop
  | .value node => ∃ fuel, parseValue data fuel pos = some (node, pos')
  | .items nodes => ∃ fuel, parseListItems data fuel pos = some (nodes, pos')
  | .entries es => ∃ fuel, parseDictEntries data fuel pos = some (es, pos')

/-- The parser reads all of its language. -/
theorem Parses.read {x : Item} (hlen : data.length ≤ PTRDIFF_MAX)
    (h : Parses LooseInt LooseStr x input rest) {pos : ℕ} (hat : At data pos input) :
    ∃ pos', x.Read data pos pos' ∧ At data pos' rest := by
  induction h generalizing pos with
  | int hint =>
    obtain ⟨pos', hparse, hrest⟩ := hint.parseInteger hat
    refine ⟨pos', ⟨1, ?_⟩, hrest⟩
    rw [parseValue, hat.head]
    simp only [if_pos (show intMark = chr 'i' by decide), hparse]
  | @str d s input rest hd hstr =>
    obtain ⟨pos', hparse, hrest⟩ := hstr.parseString hlen hat
    have hi : d ≠ chr 'i' := by
      rintro rfl
      exact absurd hd (by decide)
    refine ⟨pos', ⟨1, ?_⟩, hrest⟩
    rw [parseValue, hat.head]
    simp only [if_neg hi, if_pos hd, hparse, Option.map_some]
  | list _ ih =>
    obtain ⟨pos', ⟨fuel, hparse⟩, hrest⟩ := ih hat.tail
    refine ⟨pos', ⟨fuel + 1, ?_⟩, hrest⟩
    rw [parseValue, hat.head]
    simp only [if_neg (show listMark ≠ chr 'i' by decide), if_neg (show ¬isDigit listMark by decide),
      if_pos (show listMark = chr 'l' by decide), hparse, Option.map_some]
  | dict _ ih =>
    obtain ⟨pos', ⟨fuel, hparse⟩, hrest⟩ := ih hat.tail
    refine ⟨pos', ⟨fuel + 1, ?_⟩, hrest⟩
    rw [parseValue, hat.head]
    simp only [if_neg (show dictMark ≠ chr 'i' by decide), if_neg (show ¬isDigit dictMark by decide),
      if_neg (show dictMark ≠ chr 'l' by decide), if_pos (show dictMark = chr 'd' by decide), hparse,
      Option.map_some]
  | itemsEnd =>
    refine ⟨_, ⟨1, ?_⟩, hat.tail⟩
    rw [parseListItems, hat.head]
    rfl
  | @item b node nodes input mid rest hb _ _ ihv ih =>
    obtain ⟨pos₁, ⟨f₁, hval⟩, hmid⟩ := ihv hat
    obtain ⟨pos', ⟨f₂, hitems⟩, hrest⟩ := ih hmid
    have hb' : ¬b = chr 'e' := hb
    refine ⟨pos', ⟨max f₁ f₂ + 1, ?_⟩, hrest⟩
    rw [parseListItems, hat.head]
    simp only [if_neg hb', parseValue_of_le (le_max_left f₁ f₂) hval, Option.bind_eq_bind,
      Option.bind_some, parseListItems_of_le (le_max_right f₁ f₂) hitems]
  | entriesEnd =>
    refine ⟨_, ⟨1, ?_⟩, hat.tail⟩
    rw [parseDictEntries, hat.head]
    rfl
  | @entry b key node entries input mid mid' rest hb hkey _ _ ihv ih =>
    obtain ⟨pos₀, hparse, hmid⟩ := hkey.parseString hlen hat
    obtain ⟨pos₁, ⟨f₁, hval⟩, hmid'⟩ := ihv hmid
    obtain ⟨pos', ⟨f₂, hentries⟩, hrest⟩ := ih hmid'
    have hb' : ¬b = chr 'e' := hb
    refine ⟨pos', ⟨max f₁ f₂ + 1, ?_⟩, hrest⟩
    rw [parseDictEntries, hat.head]
    simp only [if_neg hb', hparse, parseValue_of_le (le_max_left f₁ f₂) hval, Option.bind_eq_bind,
      Option.bind_some, parseDictEntries_of_le (le_max_right f₁ f₂) hentries]

/-- What the parser reads is of its language. -/
theorem parses_of_parse (hlen : data.length ≤ PTRDIFF_MAX) : ∀ fuel : ℕ,
    (∀ {pos input r}, At data pos input → parseValue data fuel pos = some r →
      ∃ rest, Parses LooseInt LooseStr (.value r.1) input rest ∧ At data r.2 rest) ∧
    (∀ {pos input r}, At data pos input → parseListItems data fuel pos = some r →
      ∃ rest, Parses LooseInt LooseStr (.items r.1) input rest ∧ At data r.2 rest) ∧
    (∀ {pos input r}, At data pos input → parseDictEntries data fuel pos = some r →
      ∃ rest, Parses LooseInt LooseStr (.entries r.1) input rest ∧ At data r.2 rest)
  | 0 => by simp [parseValue, parseListItems, parseDictEntries]
  | fuel + 1 => by
    obtain ⟨ihv, ihl, ihd⟩ := parses_of_parse hlen fuel
    refine ⟨fun {pos input r} hat h => ?_, fun {pos input r} hat h => ?_,
      fun {pos input r} hat h => ?_⟩
    · rw [parseValue, hat.head?] at h
      cases input with
      | nil => cases h
      | cons c input =>
      dsimp only [List.head?_cons] at h
      split_ifs at h with hi hd hl hdict
      · obtain rfl : c = intMark := hi
        obtain ⟨n, rest, hint⟩ := exists_looseInt hat
        obtain ⟨pos', hparse, hrest⟩ := hint.parseInteger hat
        rw [hparse] at h
        obtain rfl := Option.some.inj h
        exact ⟨rest, .int hint, hrest⟩
      · obtain ⟨x, hx, rfl⟩ := Option.map_eq_some_iff.1 h
        obtain ⟨rest, hstr, hrest⟩ := looseStr_of_parseString hlen hat hx
        exact ⟨rest, .str hd hstr, hrest⟩
      · obtain rfl : c = listMark := hl
        obtain ⟨x, hx, rfl⟩ := Option.map_eq_some_iff.1 h
        obtain ⟨rest, hitems, hrest⟩ := ihl hat.tail hx
        exact ⟨rest, .list hitems, hrest⟩
      · obtain rfl : c = dictMark := hdict
        obtain ⟨x, hx, rfl⟩ := Option.map_eq_some_iff.1 h
        obtain ⟨rest, hentries, hrest⟩ := ihd hat.tail hx
        exact ⟨rest, .dict hentries, hrest⟩
    · rw [parseListItems, hat.head?] at h
      cases input with
      | nil => cases h
      | cons c input =>
      dsimp only [List.head?_cons] at h
      split_ifs at h with he
      · obtain rfl : c = endMark := he
        obtain rfl := Option.some.inj h
        exact ⟨input, .itemsEnd, hat.tail⟩
      · obtain ⟨x, hx, h⟩ := Option.bind_eq_some_iff.1 h
        obtain ⟨y, hy, h⟩ := Option.bind_eq_some_iff.1 h
        obtain rfl := Option.some.inj h
        obtain ⟨mid, hval, hmid⟩ := ihv hat hx
        obtain ⟨rest, hitems, hrest⟩ := ihl hmid hy
        exact ⟨rest, .item he hval hitems, hrest⟩
    · rw [parseDictEntries, hat.head?] at h
      cases input with
      | nil => cases h
      | cons c input =>
      dsimp only [List.head?_cons] at h
      split_ifs at h with he
      · obtain rfl : c = endMark := he
        obtain rfl := Option.some.inj h
        exact ⟨input, .entriesEnd, hat.tail⟩
      · obtain ⟨k, hk, h⟩ := Option.bind_eq_some_iff.1 h
        obtain ⟨x, hx, h⟩ := Option.bind_eq_some_iff.1 h
        obtain ⟨y, hy, h⟩ := Option.bind_eq_some_iff.1 h
        obtain rfl := Option.some.inj h
        obtain ⟨mid, hkey, hmid⟩ := looseStr_of_parseString hlen hat hk
        obtain ⟨mid', hval, hmid'⟩ := ihv hmid hx
        obtain ⟨rest, hentries, hrest⟩ := ihd hmid' hy
        exact ⟨rest, .entry he hkey hval hentries, hrest⟩

/-- The whole of the data. -/
theorem at_zero (data : Bytes) : At data 0 data := ⟨List.drop_zero, Nat.zero_add _⟩

/-- With loose numerals, the grammar is the language of the parser. -/
theorem bcodeParse_eq_some_iff (hlen : data.length ≤ PTRDIFF_MAX) {node : BcodeNode} :
    bcodeParse data = some node ↔ ∃ rest, Parses LooseInt LooseStr (.value node) data rest := by
  rw [bcodeParse, Option.ite_none_left_eq_some, Option.map_eq_some_iff]
  constructor
  · rintro ⟨-, r, hr, rfl⟩
    obtain ⟨rest, h, -⟩ := (parses_of_parse hlen _).1 (at_zero data) hr
    exact ⟨rest, h⟩
  · rintro ⟨rest, h⟩
    obtain ⟨pos', ⟨fuel, hparse⟩, -⟩ := h.read hlen (at_zero data)
    refine ⟨?_, (node, pos'), ?_, rfl⟩
    · rintro rfl
      cases h
    · rw [← parseValue_parseFuel (le_max_right fuel _)]
      exact parseValue_of_le (le_max_left fuel _) hparse

/-- The grammar with loose numerals has one reading. -/
theorem Parses.loose_unique (hlen : data.length ≤ PTRDIFF_MAX) {node : BcodeNode} {rest' : Bytes}
    (h : Parses LooseInt LooseStr (.value node) data rest)
    (h' : Parses LooseInt LooseStr (.value node) data rest') : rest = rest' := by
  obtain ⟨p, ⟨f, hparse⟩, hrest⟩ := h.read hlen (at_zero data)
  obtain ⟨p', ⟨f', hparse'⟩, hrest'⟩ := h'.read hlen (at_zero data)
  have heq := (parseValue_of_le (le_max_left f f') hparse).symm.trans
    (parseValue_of_le (le_max_right f f') hparse')
  obtain ⟨-, rfl⟩ := Prod.mk.inj (Option.some.inj heq)
  rw [← hrest.drop_eq, hrest'.drop_eq]

/-! ## Where the parser is right -/

/-- A prefix is a bencoded value exactly if the grammar of the format reads it. -/
theorem exists_denotes_iff {node : BcodeNode} : (∃ bs, bs <+: data ∧ Denotes bs node) ↔
    ∃ rest, Parses WellFormedInt WellFormedStr (.value node) data rest := by
  constructor
  · rintro ⟨bs, ⟨rest, rfl⟩, h⟩
    obtain ⟨b, bs', rfl, hbs⟩ := h.exists_prefix (fun hint => hint.exists_prefix)
      (fun hstr => hstr.exists_prefix)
    refine ⟨rest, ?_⟩
    rw [List.append_nil]
    exact hbs rest
  · rintro ⟨rest, h⟩
    obtain ⟨b, bs, rfl, hbs⟩ := h.exists_prefix (fun hint => hint.exists_prefix)
      (fun hstr => hstr.exists_prefix)
    refine ⟨b :: bs, List.prefix_append _ _, ?_⟩
    have h := hbs []
    rwa [List.append_nil] at h

/-- The language of the format is part of that of the parser. -/
theorem Parses.loose {x : Item} (hlen : input.length ≤ PTRDIFF_MAX)
    (h : Parses WellFormedInt WellFormedStr x input rest) : Parses LooseInt LooseStr x input rest := by
  refine (h.imp (fun _ hint => ⟨hint.loose, ?_⟩) (fun hle hstr => ⟨hstr.loose hle, ?_⟩) hlen).1
  · obtain ⟨bs, rfl, -⟩ := hint.exists_prefix
    simp
  · obtain ⟨b, bs, rfl, -⟩ := hstr.exists_prefix
    rw [List.length_append]
    omega

/-- The value with which data begins, numerals being read loosely, has no loose numeral: its
    integers have digits, are closed and fit `int64_t`, and its strings have lengths of at
    least one digit that do not wrap around. -/
def NumeralsOk (data : Bytes) : Prop :=
  ∀ node rest, Parses LooseInt LooseStr (.value node) data rest →
    Parses WellFormedInt WellFormedStr (.value node) data rest

/-- The parser returns exactly the values that prefixes of the data denote if, and only if, the
    value at the start of the data has no loose numeral. -/
theorem bcodeParse_eq_some_iff_denotes_iff (hlen : data.length ≤ PTRDIFF_MAX) :
    (∀ node, bcodeParse data = some node ↔ ∃ bs, bs <+: data ∧ Denotes bs node) ↔
      NumeralsOk data := by
  simp only [exists_denotes_iff, bcodeParse_eq_some_iff hlen]
  constructor
  · intro h node rest hloose
    obtain ⟨rest', hstrict⟩ := (h node).1 ⟨rest, hloose⟩
    rwa [hloose.loose_unique hlen (hstrict.loose hlen)]
  · rintro h node
    constructor
    · rintro ⟨rest, hloose⟩
      exact ⟨rest, h node rest hloose⟩
    · rintro ⟨rest, hstrict⟩
      exact ⟨rest, hstrict.loose hlen⟩

/-- A list of a string, a negative integer and a dictionary. -/
theorem bcodeParse_eq_some_iff_denotes_list :
    (∀ node, bcodeParse (lit "l2:abi-7eded") = some node ↔
      ∃ bs, bs <+: lit "l2:abi-7eded" ∧ Denotes bs node) ↔ NumeralsOk (lit "l2:abi-7eded") :=
  bcodeParse_eq_some_iff_denotes_iff (by decide)

/-- What begins with `i` is an integer. -/
theorem Parses.exists_int {int : Bytes → ℤ → Bytes → Prop} {str : Bytes → Bytes → Bytes → Prop}
    {node : BcodeNode} (h : Parses int str (.value node) (intMark :: input) rest) :
    ∃ n, int input n rest := by
  obtain ⟨data, hdata⟩ : ∃ data, data = intMark :: input := ⟨_, rfl⟩
  rw [← hdata] at h
  cases h with
  | int h =>
    obtain ⟨-, rfl⟩ := List.cons.inj hdata
    exact ⟨_, h⟩
  | str hd =>
    obtain ⟨rfl, -⟩ := List.cons.inj hdata
    exact absurd hd (by decide)
  | list => exact absurd (List.cons.inj hdata).1 (by decide)
  | dict => exact absurd (List.cons.inj hdata).1 (by decide)

/-- An integer that is not closed is no bencoded value, but the parser reads one. -/
theorem not_bcodeParse_eq_some_iff_unclosed :
    ¬∀ node, bcodeParse (lit "i5x") = some node ↔
      ∃ bs, bs <+: lit "i5x" ∧ Denotes bs node := by
  intro h
  have hsome : (bcodeParse (lit "i5x")).isSome := by decide
  obtain ⟨node, hnode⟩ := Option.isSome_iff_exists.1 hsome
  obtain ⟨rest, hparses⟩ := exists_denotes_iff.1 ((h node).1 hnode)
  have hlit : lit "i5x" = intMark :: lit "5x" := by decide
  rw [hlit] at hparses
  obtain ⟨n, hint⟩ := hparses.exists_int
  have hmark : endMark ∈ lit "5x" := by
    obtain ⟨input, hinput⟩ : ∃ input, input = lit "5x" := ⟨_, rfl⟩
    rw [← hinput] at hint ⊢
    obtain ⟨-⟩ := hint
    simp
  exact absurd hmark (by decide)

end PS5Torrent.Bencode
