import PS5Torrent.Bencode.Grammar

/-!
# Encoding and decoding again

The encoder of the source writes into a buffer that it enlarges as it goes
(`EncodeBuf`): every write is within the buffer, and what has been written is
the encoding (`written_encodeNode`). The encoding is a value of the format,
which the parser reads back as the tree it was made from, whatever follows it
(`parseValue_bcodeEncodeBuf`).
-/

namespace PS5Torrent.Bencode

open Decimal Bencoding

/-! ## The output buffer -/

/-- The output buffer, of which the bytes before `pos` are written. -/
structure EncodeBuf where
  buf : Bytes
  pos : ℕ

namespace EncodeBuf

/-- The write position is within the buffer. -/
def Ok (b : EncodeBuf) : Prop := b.pos ≤ b.buf.length

def written (b : EncodeBuf) : Bytes := b.buf.take b.pos

end EncodeBuf

/-- `while (target >= cap) cap *= 2`, with as many steps as there can be. -/
def growCap (target : ℕ) : ℕ → ℕ → ℕ
  | 0, cap => cap
  | fuel + 1, cap => if cap ≤ target then growCap target fuel (cap * 2) else cap

/-- `buf_ensure`; the bytes that `realloc` adds are `0` here. -/
def bufEnsure (need : ℕ) (b : EncodeBuf) : EncodeBuf :=
  if b.pos + need < b.buf.length then b
  else
    let newCap := growCap (b.pos + need) (b.pos + need)
      (if b.buf.length ≠ 0 then b.buf.length * 2 else 256)
    { b with buf := b.buf ++ List.replicate (newCap - b.buf.length) 0 }

/-- `(*buf)[(*pos)++] = c` -/
def bufPut (c : UInt8) (b : EncodeBuf) : EncodeBuf := ⟨b.buf.set b.pos c, b.pos + 1⟩

def bufAppend (data : Bytes) (b : EncodeBuf) : EncodeBuf :=
  let b := bufEnsure data.length b
  ⟨memcpyAt b.buf b.pos data, b.pos + data.length⟩

/-- `encode_string` -/
def bufString (s : Bytes) (b : EncodeBuf) : EncodeBuf :=
  bufAppend s (bufAppend (Decimal.print s.length ++ [chr ':']) b)

/-- `encode_int` -/
def bufInt (n : ℤ) (b : EncodeBuf) : EncodeBuf :=
  let b := bufPut (chr 'i') (bufEnsure 2 b)
  let b := bufAppend
    (if n < 0 then chr '-' :: Decimal.print n.natAbs else Decimal.print n.natAbs) b
  bufPut (chr 'e') (bufEnsure 1 b)

mutual

/-- `bcode_encode_node` -/
def bcodeEncodeNode : BcodeNode → EncodeBuf → EncodeBuf
  | .str s, b => bufString s b
  | .int n, b => bufInt n b
  | .list items, b =>
    bufPut (chr 'e') (bufEnsure 1 (bufItems items (bufPut (chr 'l') (bufEnsure 1 b))))
  | .dict entries, b =>
    bufPut (chr 'e') (bufEnsure 1 (bufEntries entries (bufPut (chr 'd') (bufEnsure 1 b))))

def bufItems : List BcodeNode → EncodeBuf → EncodeBuf
  | [], b => b
  | item :: items, b => bufItems items (bcodeEncodeNode item b)

def bufEntries : List (Bytes × BcodeNode) → EncodeBuf → EncodeBuf
  | [], b => b
  | (key, val) :: entries, b => bufEntries entries (bcodeEncodeNode val (bufString key b))

end

/-- The bytes that `bcode_encode` returns: the first `*out_len` of its buffer. -/
def bcodeEncodeBuf (node : BcodeNode) : Bytes := (bcodeEncodeNode node ⟨[], 0⟩).written

/-! ## What is written -/

/-- A buffer after some bytes were written to it. -/
structure Writes (bs : Bytes) (b b' : EncodeBuf) : Prop where
  ok : b'.Ok
  written : b'.written = b.written ++ bs

variable {b b' b'' : EncodeBuf} {bs bs' : Bytes}

theorem Writes.trans (h : Writes bs b b') (h' : Writes bs' b' b'') : Writes (bs ++ bs') b b'' where
  ok := h'.ok
  written := by rw [h'.written, h.written, List.append_assoc]

theorem lt_growCap {target fuel cap : ℕ} (hcap : 0 < cap) (h : target < cap + fuel) :
    target < growCap target fuel cap := by
  induction fuel generalizing cap with
  | zero => exact h
  | succ fuel ih =>
    rw [growCap]
    split
    · exact ih (by omega) (by omega)
    · omega

/-- There is room for the bytes to be written. -/
theorem bufEnsure_spec (need : ℕ) (h : b.Ok) :
    Writes [] b (bufEnsure need b) ∧ (bufEnsure need b).pos + need < (bufEnsure need b).buf.length := by
  rw [bufEnsure]
  split
  case isTrue hroom => exact ⟨⟨h, (List.append_nil _).symm⟩, hroom⟩
  case isFalse hroom =>
    have hgrow : b.pos + need < growCap (b.pos + need) (b.pos + need)
        (if b.buf.length ≠ 0 then b.buf.length * 2 else 256) := by
      refine lt_growCap ?_ ?_
      · split <;> omega
      · split <;> omega
    refine ⟨⟨?_, ?_⟩, ?_⟩
    · rw [EncodeBuf.Ok, List.length_append]
      exact h.trans (Nat.le_add_right _ _)
    · rw [EncodeBuf.written, List.take_append_of_le_length h, List.append_nil, EncodeBuf.written]
    · rw [List.length_append, List.length_replicate]
      dsimp only
      omega

theorem writes_bufPut (c : UInt8) (h : b.pos < b.buf.length) : Writes [c] b (bufPut c b) where
  ok := by
    rw [EncodeBuf.Ok, bufPut, List.length_set]
    exact h
  written := by
    rw [EncodeBuf.written, bufPut, List.take_add_one, List.take_set_of_le le_rfl,
      List.getElem?_set_self h, EncodeBuf.written]
    rfl

/-- A byte is written once there is room for it. -/
theorem writes_bufPut_bufEnsure (c : UInt8) (need : ℕ) (h : b.Ok) :
    Writes [c] b (bufPut c (bufEnsure need b)) := by
  obtain ⟨hensure, hroom⟩ := bufEnsure_spec need h
  exact hensure.trans (writes_bufPut c (by omega))

theorem writes_bufAppend (data : Bytes) (h : b.Ok) : Writes data b (bufAppend data b) := by
  obtain ⟨hensure, hroom⟩ := bufEnsure_spec data.length h
  refine hensure.trans ⟨?_, ?_⟩
  · rw [EncodeBuf.Ok, bufAppend, length_memcpyAt hroom.le]
    exact hroom.le
  · have hlen : ((bufEnsure data.length b).buf.take (bufEnsure data.length b).pos ++ data).length =
        (bufEnsure data.length b).pos + data.length := by
      rw [List.length_append, List.length_take_of_le (by omega)]
    rw [EncodeBuf.written, bufAppend, memcpyAt, List.take_left' hlen, EncodeBuf.written]

theorem writes_bufString (s : Bytes) (h : b.Ok) : Writes (encodeString s) b (bufString s b) := by
  have hlen := writes_bufAppend (Decimal.print s.length ++ [chr ':']) h
  have hstr := hlen.trans (writes_bufAppend s hlen.ok)
  rwa [List.append_assoc, List.singleton_append] at hstr

theorem writes_bufInt (n : ℤ) (h : b.Ok) : Writes (encodeInt n) b (bufInt n b) := by
  have hmark := writes_bufPut_bufEnsure (chr 'i') 2 h
  have hnum := hmark.trans (writes_bufAppend
    (if n < 0 then chr '-' :: Decimal.print n.natAbs else Decimal.print n.natAbs) hmark.ok)
  exact hnum.trans (writes_bufPut_bufEnsure (chr 'e') 1 hnum.ok)

mutual

/-- The encoder writes the encoding of the tree. -/
theorem writes_bcodeEncodeNode : ∀ (node : BcodeNode) {b : EncodeBuf}, b.Ok →
    Writes (bcodeEncode node) b (bcodeEncodeNode node b)
  | .str s, _, h => by
    rw [bcodeEncodeNode, bcodeEncode]
    exact writes_bufString s h
  | .int n, _, h => by
    rw [bcodeEncodeNode, bcodeEncode]
    exact writes_bufInt n h
  | .list items, _, h => by
    rw [bcodeEncodeNode, bcodeEncode]
    have hstart := writes_bufPut_bufEnsure (chr 'l') 1 h
    have hitems := hstart.trans (writes_bufItems items hstart.ok)
    exact hitems.trans (writes_bufPut_bufEnsure (chr 'e') 1 hitems.ok)
  | .dict entries, _, h => by
    rw [bcodeEncodeNode, bcodeEncode]
    have hstart := writes_bufPut_bufEnsure (chr 'd') 1 h
    have hentries := hstart.trans (writes_bufEntries entries hstart.ok)
    exact hentries.trans (writes_bufPut_bufEnsure (chr 'e') 1 hentries.ok)

theorem writes_bufItems : ∀ (items : List BcodeNode) {b : EncodeBuf}, b.Ok →
    Writes (encodeItems items) b (bufItems items b)
  | [], _, h => ⟨h, (List.append_nil _).symm⟩
  | item :: items, _, h => by
    have hitem := writes_bcodeEncodeNode item h
    rw [bufItems, encodeItems]
    exact hitem.trans (writes_bufItems items hitem.ok)

theorem writes_bufEntries : ∀ (entries : List (Bytes × BcodeNode)) {b : EncodeBuf}, b.Ok →
    Writes (encodeEntries entries) b (bufEntries entries b)
  | [], _, h => ⟨h, (List.append_nil _).symm⟩
  | (key, val) :: entries, _, h => by
    have hkey := writes_bufString key h
    have hval := hkey.trans (writes_bcodeEncodeNode val hkey.ok)
    rw [bufEntries, encodeEntries]
    exact hval.trans (writes_bufEntries entries hval.ok)

end

/-- The encoder of the source returns the encoding of the tree. -/
theorem bcodeEncodeBuf_eq (node : BcodeNode) : bcodeEncodeBuf node = bcodeEncode node := by
  have hempty : EncodeBuf.Ok ⟨[], 0⟩ := le_rfl
  exact (writes_bcodeEncodeNode node hempty).written

/-! ## Reading the encoding -/

theorem wellFormedStr_encodeString (s rest : Bytes) :
    WellFormedStr (encodeString s ++ rest) s rest := by
  have h : WellFormedStr (Decimal.print s.length ++ colon :: (s ++ rest)) s rest :=
    .mk (print_ne_nil _) (fun _ => isDigit_of_mem_print) (value_print _)
  rwa [encodeString, List.append_assoc, List.cons_append]

theorem wellFormedInt_print {n : ℤ} (hl : INT64_MIN ≤ n) (hu : n ≤ INT64_MAX) (rest : Bytes) :
    WellFormedInt ((if n < 0 then minus :: Decimal.print n.natAbs else Decimal.print n.natAbs) ++
      endMark :: rest) n rest := by
  have hsigned : signed (decide (n < 0)) (value (Decimal.print n.natAbs)) = n := by
    rw [signed, value_print]
    split
    case isTrue hneg =>
      have := of_decide_eq_true hneg
      omega
    case isFalse hneg =>
      have : ¬n < 0 := by simpa using hneg
      omega
  have h : WellFormedInt (sign (decide (n < 0)) ++ (Decimal.print n.natAbs ++ endMark :: rest))
      (signed (decide (n < 0)) (value (Decimal.print n.natAbs))) rest :=
    .mk (print_ne_nil _) (fun _ => isDigit_of_mem_print) (hsigned.symm ▸ hl) (hsigned.symm ▸ hu)
  rw [hsigned] at h
  by_cases hneg : n < 0
  · rw [decide_eq_true hneg] at h
    rw [if_pos hneg]
    exact h
  · rw [decide_eq_false hneg] at h
    rw [if_neg hneg]
    exact h

/-- The encoding of a string begins with a digit. -/
theorem exists_cons_encodeString (s : Bytes) :
    ∃ d bs, encodeString s = d :: bs ∧ isDigit d ∧ d ≠ endMark := by
  obtain ⟨d, ds, hds⟩ := List.exists_cons_of_ne_nil (print_ne_nil s.length)
  have hdigit : isDigit d := isDigit_of_mem_print (hds ▸ List.mem_cons_self)
  refine ⟨d, ds ++ chr ':' :: s, by rw [encodeString, hds]; rfl, hdigit, ?_⟩
  rintro rfl
  exact absurd hdigit (by decide)

/-- The encoding of a tree begins with a byte that closes no list. -/
theorem exists_cons_bcodeEncode (node : BcodeNode) :
    ∃ b bs, bcodeEncode node = b :: bs ∧ b ≠ endMark := by
  cases node with
  | str s =>
    obtain ⟨d, bs, heq, -, hd⟩ := exists_cons_encodeString s
    exact ⟨d, bs, by rw [bcodeEncode, heq], hd⟩
  | int n => exact ⟨chr 'i', _, by rw [bcodeEncode, encodeInt]; rfl, by decide⟩
  | list items => exact ⟨chr 'l', _, by rw [bcodeEncode]; rfl, by decide⟩
  | dict entries => exact ⟨chr 'd', _, by rw [bcodeEncode]; rfl, by decide⟩

/-- The encodings of items that are each read back are read back as a list. -/
theorem parses_encodeItems {items : List BcodeNode}
    (h : ∀ item ∈ items, ∀ rest, Parses WellFormedInt WellFormedStr (.value item)
      (bcodeEncode item ++ rest) rest) (rest : Bytes) :
    Parses WellFormedInt WellFormedStr (.items items) (encodeItems items ++ endMark :: rest) rest := by
  induction items with
  | nil => exact .itemsEnd
  | cons item items ih =>
    obtain ⟨b, bs, heq, hb⟩ := exists_cons_bcodeEncode item
    have hitem := h item List.mem_cons_self (encodeItems items ++ endMark :: rest)
    rw [encodeItems, List.append_assoc]
    rw [heq] at hitem ⊢
    exact .item hb hitem (ih fun x hx => h x (List.mem_cons_of_mem _ hx))

theorem parses_encodeEntries {entries : List (Bytes × BcodeNode)}
    (h : ∀ e ∈ entries, ∀ rest, Parses WellFormedInt WellFormedStr (.value e.2)
      (bcodeEncode e.2 ++ rest) rest) (rest : Bytes) :
    Parses WellFormedInt WellFormedStr (.entries entries)
      (encodeEntries entries ++ endMark :: rest) rest := by
  induction entries with
  | nil => exact .entriesEnd
  | cons e entries ih =>
    obtain ⟨d, bs, heq, -, hd⟩ := exists_cons_encodeString e.1
    have hval := h e List.mem_cons_self (encodeEntries entries ++ endMark :: rest)
    have hkey := wellFormedStr_encodeString e.1
      (bcodeEncode e.2 ++ (encodeEntries entries ++ endMark :: rest))
    rw [encodeEntries, List.append_assoc, List.append_assoc]
    rw [heq] at hkey ⊢
    exact .entry hd hkey hval (ih fun x hx => h x (List.mem_cons_of_mem _ hx))

/-- The encoding of a tree of `int64_t` integers denotes the tree. -/
theorem IsInt64.parses {node : BcodeNode} (h : IsInt64 node) (rest : Bytes) :
    Parses WellFormedInt WellFormedStr (.value node) (bcodeEncode node ++ rest) rest := by
  induction h generalizing rest with
  | str s =>
    obtain ⟨d, bs, heq, hd, -⟩ := exists_cons_encodeString s
    have hstr := wellFormedStr_encodeString s rest
    rw [bcodeEncode]
    rw [heq] at hstr ⊢
    exact .str hd hstr
  | @int n hl hu =>
    have hint := wellFormedInt_print hl hu rest
    rw [bcodeEncode, encodeInt]
    simp only [List.cons_append, List.append_assoc, List.nil_append]
    exact .int hint
  | list _ ih =>
    rw [bcodeEncode]
    simp only [List.cons_append, List.append_assoc, List.nil_append]
    exact .list (parses_encodeItems ih rest)
  | dict _ ih =>
    rw [bcodeEncode]
    simp only [List.cons_append, List.append_assoc, List.nil_append]
    exact .dict (parses_encodeEntries ih rest)

/-- Parsing what was encoded gives back the tree, and reads exactly the encoding, whatever
    bytes follow it. -/
theorem parseValue_bcodeEncodeBuf {node : BcodeNode} (h : IsInt64 node) (rest : Bytes)
    (hlen : (bcodeEncodeBuf node ++ rest).length ≤ PTRDIFF_MAX) :
    bcodeParse (bcodeEncodeBuf node ++ rest) = some node ∧
      parseValue (bcodeEncodeBuf node ++ rest) (parseFuel (bcodeEncodeBuf node ++ rest)) 0 =
        some (node, (bcodeEncodeBuf node).length) := by
  have hparses := (h.parses rest).loose (bcodeEncodeBuf_eq node ▸ hlen)
  rw [← bcodeEncodeBuf_eq] at hparses
  refine ⟨(bcodeParse_eq_some_iff hlen).2 ⟨rest, hparses⟩, ?_⟩
  obtain ⟨pos, ⟨fuel, hparse⟩, hrest⟩ := hparses.read hlen (at_zero _)
  have hpos : pos = (bcodeEncodeBuf node).length := by
    have := hrest.length_eq
    rw [List.length_append] at this
    omega
  rw [← parseValue_parseFuel (le_max_right fuel _), ← hpos]
  exact parseValue_of_le (le_max_left fuel _) hparse

/-- A dictionary with two entries of one key, followed by more bytes. -/
theorem parseValue_bcodeEncodeBuf_dict :
    bcodeParse (bcodeEncodeBuf (.dict [(lit "a", .int INT64_MIN), (lit "a", .str [])]) ++ lit "e") =
      some (.dict [(lit "a", .int INT64_MIN), (lit "a", .str [])]) := by
  have hint : IsInt64 (.dict [(lit "a", .int INT64_MIN), (lit "a", .str [])]) := by
    refine .dict (List.forall_mem_cons.2 ⟨.int le_rfl (by decide), List.forall_mem_cons.2
      ⟨.str _, by simp⟩⟩)
  exact (parseValue_bcodeEncodeBuf hint (lit "e") (by decide +kernel)).1

end PS5Torrent.Bencode
