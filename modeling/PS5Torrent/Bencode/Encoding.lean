import PS5Torrent.Bencode
import PS5Torrent.Library.Bencoding

/-!
# Decoding and encoding again

The parser builds trees of `int64_t` integers (`isInt64_of_parseValue`), whose
encoding is canonical (`IsInt64.canonical`), and the parser reads any canonical
bencoding as a tree that encodes to it (`parseValue_of_canonical`). Hence the
encoding of a parsed tree is the text it was parsed from exactly if this text is
canonical (`bcodeEncode_eq_slice_iff`).
-/

namespace PS5Torrent.Bencode

open Decimal Bencoding

/-- The canonical bencodings of trees of `int64_t` integers. -/
abbrev IsCanonicalInt64 : Bytes → Prop := Canonical INT64_MIN INT64_MAX

/-- All integers of a tree are `int64_t`. -/
inductive IsInt64 : BcodeNode → Prop
  | str (s : Bytes) : IsInt64 (.str s)
  | int {n : ℤ} : INT64_MIN ≤ n → n ≤ INT64_MAX → IsInt64 (.int n)
  | list {items : List BcodeNode} : (∀ item ∈ items, IsInt64 item) → IsInt64 (.list items)
  | dict {entries : List (Bytes × BcodeNode)} : (∀ e ∈ entries, IsInt64 e.2) →
      IsInt64 (.dict entries)

/-! ## Reading a buffer -/

theorem getElem?_of_drop {data rest : Bytes} {pos : ℕ} {b : UInt8}
    (h : data.drop pos = b :: rest) : data[pos]? = some b := by
  rw [← List.head?_drop, h, List.head?_cons]

theorem drop_of_drop_append {data xs rest : Bytes} {pos : ℕ} (h : data.drop pos = xs ++ rest) :
    data.drop (pos + xs.length) = rest := by
  rw [← List.drop_drop, h, List.drop_left]

theorem drop_succ_of_drop {data rest : Bytes} {pos : ℕ} {b : UInt8}
    (h : data.drop pos = b :: rest) : data.drop (pos + 1) = rest :=
  @drop_of_drop_append data [b] rest pos h

/-- Scanning stops at the first byte that is no digit. -/
theorem scanDigits_append {α : Type*} (push : α → ℕ → α) {ds : Bytes}
    (hds : ∀ b ∈ ds, isDigit b) {b : UInt8} (hb : ¬isDigit b) (rest : Bytes) (acc : α) (pos : ℕ) :
    scanDigits push (ds ++ b :: rest) acc pos =
      (ds.foldl (fun a d => push a (digitVal d)) acc, pos + ds.length) := by
  induction ds generalizing acc pos with
  | nil => simp [scanDigits, hb]
  | cons d ds ih =>
    rw [List.cons_append, scanDigits, if_pos (hds d List.mem_cons_self),
      ih fun x hx => hds x (List.mem_cons_of_mem _ hx)]
    simp only [List.foldl_cons, List.length_cons, Prod.mk.injEq, true_and]
    omega

/-- What every `push` establishes holds of a scanned accumulator. -/
theorem scanDigits_inv {α : Type*} {push : α → ℕ → α} {P : α → Prop}
    (hpush : ∀ a d, P (push a d)) (bs : Bytes) {acc : α} (hacc : P acc) (pos : ℕ) :
    P (scanDigits push bs acc pos).1 := by
  induction bs generalizing acc pos with
  | nil => exact hacc
  | cons b bs ih =>
    rw [scanDigits]
    split_ifs
    · exact ih (hpush _ _) _
    · exact hacc

/-- Digits accumulate in `size_t` up to wrapping. -/
theorem foldl_toSize (ds : Bytes) (n : ℕ) :
    ds.foldl (fun a d => toSize (a * 10 + digitVal d)) (toSize n) =
      toSize (ds.foldl (fun a d => a * 10 + digitVal d) n) := by
  induction ds generalizing n with
  | nil => rfl
  | cons d ds ih =>
    have hstep : toSize (toSize n * 10 + digitVal d) = toSize (n * 10 + digitVal d) := by
      rw [toSize, toSize, toSize, Nat.add_mod, Nat.mul_mod, Nat.mod_mod, ← Nat.mul_mod,
        ← Nat.add_mod]
    rw [List.foldl_cons, List.foldl_cons, hstep, ih]

/-- Digits accumulate in `int64_t` up to wrapping. -/
theorem foldl_toInt64 (ds : Bytes) (n : ℕ) :
    ds.foldl (fun (a : ℤ) d => toInt64 (a * 10 + (digitVal d : ℕ))) (toInt64 n) =
      toInt64 (ds.foldl (fun a d => a * 10 + digitVal d) n : ℕ) := by
  induction ds generalizing n with
  | nil => rw [List.foldl_nil, List.foldl_nil]
  | cons d ds ih =>
    have hstep : toInt64 (toInt64 n * 10 + (digitVal d : ℕ)) =
        toInt64 ((n * 10 + digitVal d : ℕ) : ℤ) := by
      push_cast
      rw [toInt64, toInt64, toInt64, ← Int.bmod_add_bmod, Int.bmod_mul_bmod, Int.bmod_add_bmod]
    rw [List.foldl_cons, List.foldl_cons, hstep, ih]

/-! ## Encoding what was parsed -/

theorem encodeItems_eq (items : List BcodeNode) :
    encodeItems items = (items.map bcodeEncode).flatten := by
  induction items with
  | nil => rfl
  | cons item items ih => rw [encodeItems, ih, List.map_cons, List.flatten_cons]

theorem encodeEntries_eq (entries : List (Bytes × BcodeNode)) :
    encodeEntries entries =
      ((entries.map fun e => (encodeString e.1, bcodeEncode e.2)).map fun e => e.1 ++ e.2).flatten := by
  induction entries with
  | nil => rfl
  | cons e entries ih =>
    rw [encodeEntries, ih, List.map_cons, List.map_cons, List.flatten_cons]

theorem canonicalString_encodeString (s : Bytes) : CanonicalString (encodeString s) :=
  canonicalString_print s

theorem canonical_encodeInt {n : ℤ} (hl : INT64_MIN ≤ n) (hu : n ≤ INT64_MAX) :
    IsCanonicalInt64 (encodeInt n) :=
  canonical_int hl hu

/-- A parsed integer is an `int64_t`. -/
theorem parseInteger_mem (data : Bytes) (pos : ℕ) :
    INT64_MIN ≤ (parseInteger data pos).1 ∧ (parseInteger data pos).1 ≤ INT64_MAX := by
  have h0 : INT64_MIN ≤ 0 ∧ 0 ≤ INT64_MAX := by simp [INT64_MIN, INT64_MAX]
  simp only [parseInteger]
  split
  · exact h0
  split_ifs
  · exact h0
  split
  · exact h0
  split_ifs
  · exact h0
  · exact toInt64_mem _
  · exact h0
  · exact scanDigits_inv (P := fun v => INT64_MIN ≤ v ∧ v ≤ INT64_MAX)
      (fun _ _ => toInt64_mem _) _ h0 _

mutual

theorem isInt64_of_parseValue {data : Bytes} : ∀ {fuel pos : ℕ} {node : BcodeNode} {pos' : ℕ},
    parseValue data fuel pos = some (node, pos') → IsInt64 node
  | 0, _, _, _, h => by simp [parseValue] at h
  | fuel + 1, pos, node, pos', h => by
    rw [parseValue] at h
    split at h
    · simp at h
    split_ifs at h with hi hd hl hdict
    · obtain ⟨rfl, rfl⟩ := Prod.mk.inj (Option.some.inj h)
      exact .int (parseInteger_mem data pos).1 (parseInteger_mem data pos).2
    · obtain ⟨⟨s, q⟩, -, he⟩ := Option.map_eq_some_iff.1 h
      obtain ⟨rfl, rfl⟩ := Prod.mk.inj he
      exact .str s
    · obtain ⟨⟨items, q⟩, hitems, he⟩ := Option.map_eq_some_iff.1 h
      obtain ⟨rfl, rfl⟩ := Prod.mk.inj he
      exact .list (isInt64_of_parseListItems hitems)
    · obtain ⟨⟨entries, q⟩, hentries, he⟩ := Option.map_eq_some_iff.1 h
      obtain ⟨rfl, rfl⟩ := Prod.mk.inj he
      exact .dict (isInt64_of_parseDictEntries hentries)

theorem isInt64_of_parseListItems {data : Bytes} : ∀ {fuel pos : ℕ} {items : List BcodeNode}
    {pos' : ℕ}, parseListItems data fuel pos = some (items, pos') → ∀ item ∈ items, IsInt64 item
  | 0, _, _, _, h => by simp [parseListItems] at h
  | fuel + 1, pos, items, pos', h => by
    rw [parseListItems] at h
    split at h
    · simp at h
    split_ifs at h
    · obtain ⟨rfl, -⟩ := Prod.mk.inj (Option.some.inj h)
      simp
    · obtain ⟨⟨child, p⟩, hchild, h⟩ := Option.bind_eq_some_iff.1 h
      obtain ⟨⟨rest, q⟩, hrest, h⟩ := Option.bind_eq_some_iff.1 h
      obtain ⟨rfl, -⟩ := Prod.mk.inj (Option.some.inj h)
      exact List.forall_mem_cons.2
        ⟨isInt64_of_parseValue hchild, isInt64_of_parseListItems hrest⟩

theorem isInt64_of_parseDictEntries {data : Bytes} : ∀ {fuel pos : ℕ}
    {entries : List (Bytes × BcodeNode)} {pos' : ℕ},
    parseDictEntries data fuel pos = some (entries, pos') → ∀ e ∈ entries, IsInt64 e.2
  | 0, _, _, _, h => by simp [parseDictEntries] at h
  | fuel + 1, pos, entries, pos', h => by
    rw [parseDictEntries] at h
    split at h
    · simp at h
    split_ifs at h
    · obtain ⟨rfl, -⟩ := Prod.mk.inj (Option.some.inj h)
      simp
    · obtain ⟨⟨key, p⟩, -, h⟩ := Option.bind_eq_some_iff.1 h
      obtain ⟨⟨val, q⟩, hval, h⟩ := Option.bind_eq_some_iff.1 h
      obtain ⟨⟨rest, r⟩, hrest, h⟩ := Option.bind_eq_some_iff.1 h
      obtain ⟨rfl, -⟩ := Prod.mk.inj (Option.some.inj h)
      exact List.forall_mem_cons.2
        ⟨isInt64_of_parseValue hval, isInt64_of_parseDictEntries hrest⟩

end

/-- The encoding of a tree of `int64_t` integers is canonical. -/
theorem IsInt64.canonical {node : BcodeNode} (h : IsInt64 node) :
    IsCanonicalInt64 (bcodeEncode node) := by
  induction h with
  | str s => exact .str (canonicalString_encodeString s)
  | int hl hu => exact canonical_encodeInt hl hu
  | list _ ih =>
    rw [bcodeEncode, encodeItems_eq]
    exact .list (List.forall_mem_map.2 ih)
  | dict _ ih =>
    rw [bcodeEncode, encodeEntries_eq]
    exact .dict (List.forall_mem_map.2 fun e _ => canonicalString_encodeString e.1)
      (List.forall_mem_map.2 ih)

/-! ## Parsing canonical text -/

/-- A string whose length is written in digits, leading zeros allowed. -/
theorem parseString_of_digits {data ds s rest : Bytes} {pos : ℕ}
    (hlen : data.length ≤ PTRDIFF_MAX) (hds : ∀ b ∈ ds, isDigit b) (hval : value ds = s.length)
    (hd : data.drop pos = ds ++ colon :: (s ++ rest)) :
    parseString data pos = some (s, pos + ds.length + 1 + s.length) := by
  have hlt : pos + ds.length + 1 + s.length ≤ data.length := by
    have := congrArg List.length hd
    simp only [List.length_drop, List.length_append, List.length_cons] at this
    omega
  simp only [PTRDIFF_MAX] at hlen
  have hslen : ds.foldl (fun a d => toSize (a * 10 + digitVal d)) 0 = s.length := by
    have h0 : toSize 0 = 0 := toSize_of_lt (by norm_num)
    have hfold := foldl_toSize ds 0
    rw [h0] at hfold
    rw [hfold, show ds.foldl _ 0 = value ds from rfl, hval, toSize_of_lt (by omega)]
  have hscan := scanDigits_append (fun n d => toSize (n * 10 + d)) hds
    (by decide : ¬isDigit colon) (s ++ rest) 0 pos
  have hcolon := drop_of_drop_append hd
  simp only [parseString, hd, hscan, hslen]
  rw [if_neg (by rw [getElem?_of_drop hcolon]; decide), if_neg, if_neg,
    drop_succ_of_drop hcolon, List.take_left]
  · simp only [PTRDIFF_MAX]
    omega
  · rw [toSize_of_lt (by omega)]
    omega

theorem parseString_of_canonical {data bs rest : Bytes} {pos : ℕ}
    (hlen : data.length ≤ PTRDIFF_MAX) (hbs : CanonicalString bs)
    (hd : data.drop pos = bs ++ rest) :
    ∃ s, encodeString s = bs ∧ parseString data pos = some (s, pos + bs.length) := by
  obtain ⟨s, rfl⟩ := hbs.exists_print
  rw [List.append_assoc, List.cons_append] at hd
  refine ⟨s, rfl, ?_⟩
  rw [parseString_of_digits hlen (fun _ => isDigit_of_mem_print) (value_print _) hd]
  simp only [List.length_append, List.length_cons]
  congr 2
  omega

/-- Scanning digits in `int64_t` up to the closing `e`. -/
theorem scanDigits_toInt64 {data ds rest : Bytes} {pos : ℕ} (hds : ∀ b ∈ ds, isDigit b)
    (hd : data.drop pos = ds ++ endMark :: rest) :
    scanDigits (fun (v : ℤ) d => toInt64 (v * 10 + (d : ℕ))) (data.drop pos) 0 pos =
        (toInt64 (value ds), pos + ds.length) ∧
      data[pos + ds.length]? = some (chr 'e') := by
  have hfold := foldl_toInt64 ds 0
  rw [Nat.cast_zero, toInt64_of_mem (by decide) (by decide)] at hfold
  refine ⟨?_, getElem?_of_drop (drop_of_drop_append hd)⟩
  rw [hd, scanDigits_append _ hds (by decide) rest 0 pos, hfold]
  rfl

/-- A nonnegative integer, leading zeros allowed. -/
theorem parseInteger_of_digits {data ds rest : Bytes} {pos : ℕ} (hne : ds ≠ [])
    (hds : ∀ b ∈ ds, isDigit b) (hd : data.drop pos = intMark :: (ds ++ endMark :: rest)) :
    parseInteger data pos = (toInt64 (value ds), pos + ds.length + 2) := by
  have hds1 := drop_succ_of_drop hd
  obtain ⟨hscan, hend⟩ := scanDigits_toInt64 hds hds1
  obtain ⟨d, ds', rfl⟩ := List.exists_cons_of_ne_nil hne
  have hminus : d ≠ chr '-' := by
    rintro rfl
    exact absurd (hds _ List.mem_cons_self) (by decide)
  have hd1 : data[pos + 1]? = some d := getElem?_of_drop (List.cons_append ▸ hds1)
  simp only [parseInteger, getElem?_of_drop hd, hd1, hminus, if_false, hscan, hend, ne_eq,
    not_true_eq_false]
  rw [if_neg (by decide), Prod.mk.injEq]
  exact ⟨rfl, by omega⟩

/-- A negative integer, leading zeros allowed. -/
theorem parseInteger_of_minus_digits {data ds rest : Bytes} {pos : ℕ}
    (hds : ∀ b ∈ ds, isDigit b)
    (hd : data.drop pos = intMark :: minus :: (ds ++ endMark :: rest)) :
    parseInteger data pos = (toInt64 (-(value ds : ℤ)), pos + ds.length + 3) := by
  have hd1 := drop_succ_of_drop hd
  obtain ⟨hscan, hend⟩ := scanDigits_toInt64 hds (drop_succ_of_drop hd1)
  have hneg : toInt64 (-toInt64 (value ds)) = toInt64 (-(value ds : ℤ)) := by
    rw [toInt64, toInt64, toInt64, Int.bmod_neg_bmod]
  have hminus : minus = chr '-' := by decide
  rw [show pos + 1 + 1 = pos + 2 from rfl] at hscan hend
  simp only [parseInteger, getElem?_of_drop hd, getElem?_of_drop hd1, hminus, if_true, hscan, hend,
    ne_eq, not_true_eq_false, if_false, hneg]
  rw [if_neg (by decide), Prod.mk.injEq]
  exact ⟨rfl, by omega⟩

/-- A parse that succeeds does so with more fuel. -/
theorem parse_succ (data : Bytes) : ∀ fuel : ℕ,
    (∀ {pos r}, parseValue data fuel pos = some r → parseValue data (fuel + 1) pos = some r) ∧
    (∀ {pos r}, parseListItems data fuel pos = some r →
      parseListItems data (fuel + 1) pos = some r) ∧
    (∀ {pos r}, parseDictEntries data fuel pos = some r →
      parseDictEntries data (fuel + 1) pos = some r)
  | 0 => by simp [parseValue, parseListItems, parseDictEntries]
  | fuel + 1 => by
    obtain ⟨ihv, ihl, ihd⟩ := parse_succ data fuel
    refine ⟨fun {pos r} h => ?_, fun {pos r} h => ?_, fun {pos r} h => ?_⟩
    · rw [parseValue] at h ⊢
      split at h
      · simp at h
      split_ifs at h ⊢
      · exact h
      · exact h
      · obtain ⟨x, hx, rfl⟩ := Option.map_eq_some_iff.1 h
        rw [ihl hx, Option.map_some]
      · obtain ⟨x, hx, rfl⟩ := Option.map_eq_some_iff.1 h
        rw [ihd hx, Option.map_some]
    · rw [parseListItems] at h ⊢
      split at h
      · simp at h
      split_ifs at h ⊢
      · exact h
      · obtain ⟨x, hx, h⟩ := Option.bind_eq_some_iff.1 h
        obtain ⟨y, hy, h⟩ := Option.bind_eq_some_iff.1 h
        exact Option.bind_eq_some_iff.2 ⟨x, ihv hx, Option.bind_eq_some_iff.2 ⟨y, ihl hy, h⟩⟩
    · rw [parseDictEntries] at h ⊢
      split at h
      · simp at h
      split_ifs at h ⊢
      · exact h
      · obtain ⟨k, hk, h⟩ := Option.bind_eq_some_iff.1 h
        obtain ⟨x, hx, h⟩ := Option.bind_eq_some_iff.1 h
        obtain ⟨y, hy, h⟩ := Option.bind_eq_some_iff.1 h
        exact Option.bind_eq_some_iff.2 ⟨k, hk, Option.bind_eq_some_iff.2 ⟨x, ihv hx,
          Option.bind_eq_some_iff.2 ⟨y, ihd hy, h⟩⟩⟩

theorem parseValue_of_le {data : Bytes} {fuel fuel' pos : ℕ} {r : BcodeNode × ℕ}
    (hf : fuel ≤ fuel') (h : parseValue data fuel pos = some r) :
    parseValue data fuel' pos = some r :=
  Nat.le_induction h (fun n _ ih => (parse_succ data n).1 ih) fuel' hf

theorem parseListItems_of_le {data : Bytes} {fuel fuel' pos : ℕ} {r : List BcodeNode × ℕ}
    (hf : fuel ≤ fuel') (h : parseListItems data fuel pos = some r) :
    parseListItems data fuel' pos = some r :=
  Nat.le_induction h (fun n _ ih => (parse_succ data n).2.1 ih) fuel' hf

theorem parseDictEntries_of_le {data : Bytes} {fuel fuel' pos : ℕ}
    {r : List (Bytes × BcodeNode) × ℕ} (hf : fuel ≤ fuel')
    (h : parseDictEntries data fuel pos = some r) : parseDictEntries data fuel' pos = some r :=
  Nat.le_induction h (fun n _ ih => (parse_succ data n).2.2 ih) fuel' hf

/-- With enough fuel, the parser reads at `pos` a tree that encodes to `bs`,
    and stops after `bs`. -/
def Reads (data : Bytes) (pos : ℕ) (bs : Bytes) : Prop :=
  ∃ fuel node, parseValue data fuel pos = some (node, pos + bs.length) ∧ bcodeEncode node = bs

/-- A canonical bencoding starts with a byte that closes no list. -/
theorem exists_cons_of_canonical {lo hi : ℤ} {bs : Bytes} (h : Canonical lo hi bs) :
    ∃ b rest, bs = b :: rest ∧ b ≠ chr 'e' := by
  cases h with
  | str h =>
    obtain ⟨hds, -⟩ := h
    obtain ⟨d, ds', rfl⟩ := List.exists_cons_of_ne_nil hds.ne_nil
    refine ⟨d, _, rfl, ?_⟩
    rintro rfl
    exact absurd (hds.isDigit _ List.mem_cons_self) (by decide)
  | int | negInt | list | dict => exact ⟨_, _, rfl, by decide⟩

/-- The items of a list, each of which the parser reads, up to the closing `e`. -/
theorem parseListItems_of_reads {data rest : Bytes} {items : List Bytes}
    (hne : ∀ bs ∈ items, ∃ b rest, bs = b :: rest ∧ b ≠ chr 'e')
    (hitems : ∀ bs ∈ items, ∀ pos rest, data.drop pos = bs ++ rest → Reads data pos bs) :
    ∀ pos, data.drop pos = items.flatten ++ endMark :: rest →
      ∃ fuel nodes, parseListItems data fuel pos = some (nodes, pos + items.flatten.length + 1) ∧
        encodeItems nodes = items.flatten := by
  induction items with
  | nil =>
    intro pos hd
    refine ⟨1, [], ?_, rfl⟩
    rw [parseListItems, getElem?_of_drop hd]
    rfl
  | cons bs items ih =>
    intro pos hd
    rw [List.flatten_cons, List.append_assoc] at hd
    obtain ⟨f₁, node, hnode, henc⟩ := hitems bs List.mem_cons_self pos _ hd
    obtain ⟨f₂, nodes, hnodes, hencs⟩ := ih (fun x hx => hne x (List.mem_cons_of_mem _ hx))
      (fun x hx => hitems x (List.mem_cons_of_mem _ hx)) _ (drop_of_drop_append hd)
    obtain ⟨b, bs', rfl, hb⟩ := hne bs List.mem_cons_self
    refine ⟨max f₁ f₂ + 1, node :: nodes, ?_, by rw [encodeItems, henc, hencs, List.flatten_cons]⟩
    rw [parseListItems, getElem?_of_drop hd]
    simp only [if_neg hb, parseValue_of_le (le_max_left f₁ f₂) hnode, Option.bind_eq_bind,
      Option.bind_some, parseListItems_of_le (le_max_right f₁ f₂) hnodes, List.flatten_cons,
      List.length_append]
    congr 2
    omega

/-- The entries of a dictionary, each value of which the parser reads, up to
    the closing `e`. -/
theorem parseDictEntries_of_reads {data rest : Bytes} (hlen : data.length ≤ PTRDIFF_MAX)
    {entries : List (List UInt8 × List UInt8)} (hkeys : ∀ e ∈ entries, CanonicalString e.1)
    (hvals : ∀ e ∈ entries, ∀ pos rest, data.drop pos = e.2 ++ rest → Reads data pos e.2) :
    ∀ pos, data.drop pos = (entries.map fun e => e.1 ++ e.2).flatten ++ endMark :: rest →
      ∃ fuel nodes, parseDictEntries data fuel pos =
          some (nodes, pos + (entries.map fun e => e.1 ++ e.2).flatten.length + 1) ∧
        encodeEntries nodes = (entries.map fun e => e.1 ++ e.2).flatten := by
  induction entries with
  | nil =>
    intro pos hd
    refine ⟨1, [], ?_, rfl⟩
    rw [parseDictEntries, getElem?_of_drop hd]
    rfl
  | cons e entries ih =>
    intro pos hd
    obtain ⟨key, val⟩ := e
    rw [List.map_cons, List.flatten_cons, List.append_assoc, List.append_assoc] at hd
    have hkey : CanonicalString key := hkeys _ List.mem_cons_self
    obtain ⟨k, hk, hparse⟩ := parseString_of_canonical hlen hkey hd
    have hd' := drop_of_drop_append hd
    obtain ⟨f₁, node, hnode, henc⟩ := hvals _ List.mem_cons_self _ _ hd'
    obtain ⟨f₂, nodes, hnodes, hencs⟩ := ih (fun x hx => hkeys x (List.mem_cons_of_mem _ hx))
      (fun x hx => hvals x (List.mem_cons_of_mem _ hx)) _ (drop_of_drop_append hd')
    refine ⟨max f₁ f₂ + 1, (k, node) :: nodes, ?_, by
      rw [encodeEntries, henc, hencs, hk, List.map_cons, List.flatten_cons]⟩
    obtain ⟨b, key', hb, hne⟩ := exists_cons_of_canonical (.str hkey : Canonical 0 0 key)
    have hpos : data[pos]? = some b := getElem?_of_drop (hb ▸ hd)
    rw [parseDictEntries, hpos]
    simp only [if_neg hne, hparse, parseValue_of_le (le_max_left f₁ f₂) hnode,
      Option.bind_eq_bind, Option.bind_some, parseDictEntries_of_le (le_max_right f₁ f₂) hnodes,
      List.map_cons, List.flatten_cons, List.length_append]
    congr 2
    omega

/-- The parser reads canonical text as a tree that encodes to it. -/
theorem reads_of_canonical {data bs : Bytes} (hlen : data.length ≤ PTRDIFF_MAX)
    (h : IsCanonicalInt64 bs) : ∀ pos rest, data.drop pos = bs ++ rest → Reads data pos bs := by
  induction h with
  | @str bs hbs =>
    intro pos rest hd
    obtain ⟨s, hs, hparse⟩ := parseString_of_canonical hlen hbs hd
    obtain ⟨hds, -⟩ := hbs
    obtain ⟨d, ds', rfl⟩ := List.exists_cons_of_ne_nil hds.ne_nil
    have hdigit := hds.isDigit d List.mem_cons_self
    have hi : d ≠ chr 'i' := by
      rintro rfl
      exact absurd hdigit (by decide)
    refine ⟨1, .str s, ?_, hs⟩
    rw [parseValue, getElem?_of_drop (b := d) hd]
    simp only [if_neg hi, if_pos hdigit, hparse, Option.map_some]
  | @int ds hds hu =>
    intro pos rest hd
    simp only [List.cons_append, List.append_assoc, List.nil_append] at hd
    have hval : toInt64 (value ds) = value ds := by
      refine toInt64_of_mem ?_ hu
      simp only [INT64_MIN]
      omega
    have hnonneg : ¬(value ds : ℤ) < 0 := by omega
    refine ⟨1, .int (value ds), ?_, ?_⟩
    · rw [parseValue, getElem?_of_drop hd]
      simp only [if_pos (show intMark = chr 'i' by decide),
        parseInteger_of_digits hds.ne_nil hds.isDigit hd, hval, List.cons_append, List.length_cons,
        List.length_append, List.length_nil]
      congr 2
    · rw [bcodeEncode, encodeInt, if_neg hnonneg, Int.natAbs_natCast, print_value hds]
      rfl
  | @negInt ds hds hne hl =>
    intro pos rest hd
    simp only [List.cons_append, List.append_assoc, List.nil_append] at hd
    have hval : toInt64 (-(value ds : ℤ)) = -(value ds : ℤ) := by
      refine toInt64_of_mem hl ?_
      simp only [INT64_MAX]
      omega
    have hneg : -(value ds : ℤ) < 0 := by omega
    refine ⟨1, .int (-(value ds : ℤ)), ?_, ?_⟩
    · rw [parseValue, getElem?_of_drop hd]
      simp only [if_pos (show intMark = chr 'i' by decide),
        parseInteger_of_minus_digits hds.isDigit hd, hval, List.cons_append, List.length_cons,
        List.length_append, List.length_nil]
      congr 2
    · rw [bcodeEncode, encodeInt, if_pos hneg, Int.natAbs_neg, Int.natAbs_natCast, print_value hds]
      rfl
  | @list items hitems ih =>
    intro pos rest hd
    simp only [List.cons_append, List.append_assoc, List.nil_append] at hd
    obtain ⟨fuel, nodes, hparse, henc⟩ := parseListItems_of_reads
      (fun bs hbs => exists_cons_of_canonical (hitems bs hbs)) ih _ (drop_succ_of_drop hd)
    refine ⟨fuel + 1, .list nodes, ?_, by rw [bcodeEncode, henc]; rfl⟩
    rw [parseValue, getElem?_of_drop hd]
    simp only [if_neg (show listMark ≠ chr 'i' by decide), if_neg (show ¬isDigit listMark by decide),
      if_pos (show listMark = chr 'l' by decide), hparse, Option.map_some, List.cons_append,
      List.length_cons, List.length_append, List.length_nil]
    congr 2
    omega
  | @dict entries hkeys _ ih =>
    intro pos rest hd
    simp only [List.cons_append, List.append_assoc, List.nil_append] at hd
    obtain ⟨fuel, nodes, hparse, henc⟩ :=
      parseDictEntries_of_reads hlen hkeys ih _ (drop_succ_of_drop hd)
    refine ⟨fuel + 1, .dict nodes, ?_, by rw [bcodeEncode, henc]; rfl⟩
    rw [parseValue, getElem?_of_drop hd]
    simp only [if_neg (show dictMark ≠ chr 'i' by decide), if_neg (show ¬isDigit dictMark by decide),
      if_neg (show dictMark ≠ chr 'l' by decide), if_pos (show dictMark = chr 'd' by decide), hparse,
      Option.map_some, List.cons_append, List.length_cons, List.length_append, List.length_nil]
    congr 2
    omega

/-- The encoding of a parsed tree is the text it was parsed from exactly if
    this text is canonical. -/
theorem bcodeEncode_eq_slice_iff {data : Bytes} (hlen : data.length ≤ PTRDIFF_MAX)
    {fuel pos pos' : ℕ} {node : BcodeNode} (h : parseValue data fuel pos = some (node, pos')) :
    bcodeEncode node = (data.drop pos).take (pos' - pos) ↔
      IsCanonicalInt64 ((data.drop pos).take (pos' - pos)) := by
  refine ⟨fun he => he ▸ (isInt64_of_parseValue h).canonical, fun hc => ?_⟩
  -- The canonical text is read as a tree that encodes to it; with the larger
  -- of the two fuels, this is the tree that was parsed.
  obtain ⟨fuel', node', h', henc⟩ := reads_of_canonical hlen hc pos _
    (List.take_append_drop (pos' - pos) (data.drop pos)).symm
  have heq := (parseValue_of_le (le_max_left fuel fuel') h).symm.trans
    (parseValue_of_le (le_max_right fuel fuel') h')
  rw [(Prod.mk.inj (Option.some.inj heq)).1, henc]

end PS5Torrent.Bencode
