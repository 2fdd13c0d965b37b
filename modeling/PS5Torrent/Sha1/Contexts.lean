import PS5Torrent.Sha1.Compression

/-!
# Contexts

A context of `sha1.c` stands for the bytes it has been updated with, however
they were split (`Holds`): the state is the hash value after their full blocks,
the rest is at the start of the buffer, and the count is their number of bits.
An update keeps this (`Holds.update`), and the final steps append the padding,
in one or two more blocks; so the digest is that of the standard
(`sha1_updates`), and the contents of the buffer before the first update do not
matter.
-/

namespace PS5Torrent.Sha1

open BitString

variable {ctx : Ctx} {state : State} {blocks block data m tail old : Bytes} {n : ℕ}

/-! ## Blocks -/

/-- The state after full blocks. -/
structure Absorbed (state : State) (blocks : Bytes) : Prop where
  dvd : 64 ∣ blocks.length
  words : state.words =
    SecureHash.hashBlocks (blocks.length / 64) SecureHash.initial (ofBytes blocks)

/-- One more block. -/
theorem Absorbed.transform (h : Absorbed state blocks) (hblock : block.length = 64) :
    Absorbed (sha1Transform state block) (blocks ++ block) where
  dvd := by
    rw [List.length_append, hblock]
    exact (Nat.dvd_add_left (dvd_refl 64)).2 h.dvd
  words := by
    obtain ⟨n, hn⟩ := h.dvd
    have hbits : (ofBytes blocks).length = 512 * n := by
      rw [length_ofBytes, hn]
      omega
    have hone : (ofBytes block).length = 512 := by rw [length_ofBytes, hblock]
    have hwords := h.words
    rw [hn, Nat.mul_div_cancel_left n (by decide)] at hwords
    rw [sha1Transform_eq state hblock, hwords, ofBytes_append, List.length_append, hblock, hn,
      show (64 * n + 64) / 64 = n + 1 by omega, SecureHash.hashBlocks_append hbits,
      SecureHash.hashBlocks, SecureHash.hashBlocks, List.take_of_length_le hone.le]

/-- The full blocks at the start of data. -/
theorem Absorbed.transformBlocks (h : Absorbed state blocks) (hle : 64 * n ≤ data.length) :
    Absorbed (transformBlocks n state data).1 (blocks ++ data.take (64 * n)) ∧
      (transformBlocks n state data).2 = data.drop (64 * n) := by
  induction n generalizing state blocks data with
  | zero =>
    rw [Sha1.transformBlocks, Nat.mul_zero, List.take_zero, List.append_nil, List.drop_zero]
    exact ⟨h, rfl⟩
  | succ n ih =>
    have hblock : (data.take 64).length = 64 := by
      rw [List.length_take]
      omega
    have hrest : 64 * n ≤ (data.drop 64).length := by
      rw [List.length_drop]
      omega
    obtain ⟨habsorbed, hdrop⟩ := ih (h.transform hblock) hrest
    have htake : data.take 64 ++ (data.drop 64).take (64 * n) = data.take (64 * (n + 1)) := by
      rw [← List.take_add, Nat.mul_succ, Nat.add_comm]
    rw [List.append_assoc, htake] at habsorbed
    rw [List.drop_drop, Nat.add_comm, ← Nat.mul_succ] at hdrop
    exact ⟨habsorbed, hdrop⟩

/-! ## Updates -/

/-- A context for the bytes `m`. -/
structure Holds (ctx : Ctx) (m : Bytes) : Prop where
  split : ∃ blocks tail old, m = blocks ++ tail ∧ Absorbed ctx.state blocks ∧
    ctx.buffer = tail ++ old ∧ tail.length < 64
  buffer : ctx.buffer.length = 64
  count : ctx.count = toSize (8 * m.length)

/-- Writing after what is at the start of a buffer. -/
theorem memcpyAt_append (tail old src : Bytes) :
    memcpyAt (tail ++ old) tail.length src = tail ++ src ++ old.drop src.length := by
  rw [memcpyAt, List.take_left, ← List.drop_drop, List.drop_left]

/-- The position in the buffer, also if the count has wrapped. -/
theorem index_eq (habsorbed : Absorbed state blocks) (htail : tail.length < 64) :
    toSize (8 * (blocks ++ tail).length) / 8 % 64 = tail.length := by
  obtain ⟨n, hn⟩ := habsorbed.dvd
  rw [toSize, List.length_append, hn]
  omega

theorem toSize_count (m data : Bytes) :
    toSize (toSize (8 * m.length) + data.length * 8) = toSize (8 * (m ++ data).length) := by
  rw [toSize, toSize, toSize, Nat.mod_add_mod, List.length_append, Nat.mul_add,
    Nat.mul_comm data.length]

/-- The end of an update, after full blocks. -/
theorem holds_updateBlocks (habsorbed : Absorbed ctx.state blocks) (hbuffer : ctx.buffer.length = 64)
    (hcount : ctx.count = toSize (8 * (blocks ++ data).length)) :
    Holds (updateBlocks ctx data 0) (blocks ++ data) := by
  have hle : 64 * (data.length / 64) ≤ data.length := Nat.mul_div_le ..
  obtain ⟨hblocks, hrest⟩ := habsorbed.transformBlocks hle
  have hlt : (data.drop (64 * (data.length / 64))).length < 64 := by
    rw [List.length_drop]
    omega
  have hctx : updateBlocks ctx data 0 =
      { ctx with
        state := (transformBlocks (data.length / 64) ctx.state data).1
        buffer := memcpyAt ctx.buffer 0 (transformBlocks (data.length / 64) ctx.state data).2 } :=
    rfl
  rw [hctx, hrest]
  refine ⟨⟨_, _, _, ?_, hblocks, memcpyAt_append [] ctx.buffer _, hlt⟩, ?_, hcount⟩
  · rw [List.nil_append, List.append_assoc, List.take_append_drop]
  · refine (length_memcpyAt ?_).trans hbuffer
    omega

/-- An update. -/
theorem Holds.update (h : Holds ctx m) (data : Bytes) : Holds (sha1Update ctx data) (m ++ data) := by
  obtain ⟨⟨blocks, tail, old, rfl, habsorbed, hbuffer, htail⟩, hlen, hcount⟩ := h
  have hidx : ctx.count / 8 % 64 = tail.length := by rw [hcount, index_eq habsorbed htail]
  have hold : old.length = 64 - tail.length := by
    rw [hbuffer, List.length_append] at hlen
    omega
  have hcount' : toSize (ctx.count + data.length * 8) =
      toSize (8 * (blocks ++ tail ++ data).length) := by rw [hcount, toSize_count]
  rw [sha1Update, hidx]
  dsimp only
  split
  case isTrue hpos =>
    rw [hbuffer, memcpyAt_append, memcpyAt_append]
    split
    case isTrue hfits =>
      refine ⟨⟨blocks, tail ++ data, _, List.append_assoc .., habsorbed, rfl, ?_⟩, ?_, hcount'⟩
      · rw [List.length_append]
        omega
      · dsimp only
        rw [List.length_append, List.length_append, List.length_drop]
        omega
    case isFalse hfull =>
      have hfill : (data.take (64 - tail.length)).length = 64 - tail.length := by
        rw [List.length_take]
        omega
      have hdrop : old.drop (data.take (64 - tail.length)).length = [] :=
        List.drop_eq_nil_of_le (by omega)
      rw [hdrop, List.append_nil]
      have hblock : (tail ++ data.take (64 - tail.length)).length = 64 := by
        rw [List.length_append, hfill]
        omega
      have hm : blocks ++ tail ++ data =
          blocks ++ (tail ++ data.take (64 - tail.length)) ++ data.drop (64 - tail.length) := by
        rw [← List.append_assoc blocks, List.append_assoc _ (data.take _), List.take_append_drop]
      rw [hm] at hcount' ⊢
      exact holds_updateBlocks (habsorbed.transform hblock) hblock hcount'
  case isFalse hzero =>
    obtain rfl := List.length_eq_zero_iff.1 (Nat.eq_zero_of_not_pos hzero)
    rw [List.append_nil] at hcount' ⊢
    exact holds_updateBlocks habsorbed hlen hcount'

/-! ## Padding -/

/-- What `sha1_final` appends: a bit, zeros and the number of bits. -/
def paddingBytes (zeros bits : ℕ) : Bytes := 0x80 :: List.replicate zeros 0 ++ bigEndian64 bits

theorem ofBytes_bigEndian64 (l : ℕ) : ofBytes (bigEndian64 l) = bits 64 l :=
  ofBytes_bigEndian 8 l

/-- The padding of the standard, for a message of bytes. -/
theorem ofBytes_paddingBytes {len zeros : ℕ} (h : (len + 1 + zeros) % 64 = 56) (hlt : zeros < 64) :
    ofBytes (paddingBytes zeros (toSize (8 * len))) = SecureHash.padding (8 * len) := by
  have hlength : SecureHash.padLength (8 * len) = 7 + 8 * zeros :=
    SecureHash.padLength_eq (by omega) (by omega)
  have hbit : ofBytes [0x80] = true :: List.replicate 7 false := rfl
  have hcount : bits 64 (toSize (8 * len)) = bits 64 (8 * len) := bits_mod 64 _
  rw [SecureHash.padding, hlength, ← List.replicate_append_replicate, paddingBytes,
    ← List.singleton_append, ofBytes_append, ofBytes_append, hbit, ofBytes_replicate_zero,
    ofBytes_bigEndian64, hcount]
  simp only [List.cons_append, List.append_assoc]

/-- The digest in a state. -/
def State.digest (s : State) : Bytes :=
  wordBytes s.a ++ wordBytes s.b ++ wordBytes s.c ++ wordBytes s.d ++ wordBytes s.e

theorem ofBytes_wordBytes (w : Word) : ofBytes (wordBytes w) = bits 32 w.toNat := by
  rw [← ofBytes_bigEndian 4 w.toNat, wordBytes]
  simp only [BitVec.toNat_ushiftRight, Nat.shiftRight_eq_div_pow]
  rfl

/-- The digest after the blocks of a padded message. -/
theorem digest_of_absorbed {zeros : ℕ} (h : (m.length + 1 + zeros) % 64 = 56) (hlt : zeros < 64)
    (habsorbed : Absorbed state (m ++ paddingBytes zeros (toSize (8 * m.length)))) :
    ofBytes state.digest = SecureHash.sha1 (ofBytes m) := by
  have hpadded : ofBytes (m ++ paddingBytes zeros (toSize (8 * m.length))) =
      ofBytes m ++ SecureHash.padding (ofBytes m).length := by
    rw [ofBytes_append, ofBytes_paddingBytes h hlt, length_ofBytes]
  have hblocks : (ofBytes (m ++ paddingBytes zeros (toSize (8 * m.length)))).length / 512 =
      (m ++ paddingBytes zeros (toSize (8 * m.length))).length / 64 := by
    rw [length_ofBytes, show 512 = 8 * 64 from rfl, Nat.mul_div_mul_left _ _ (by decide)]
  rw [SecureHash.sha1, ← hpadded, hblocks, ← habsorbed.words, State.digest]
  simp only [ofBytes_append, ofBytes_wordBytes]
  rfl

/-- The end of the padding, in a block of its own or after the rest of the message. -/
theorem digest_of_last (zeros : ℕ) {start : Bytes} (habsorbed : Absorbed state blocks)
    (hstart : start.length = 56) (hm : m ++ paddingBytes zeros (toSize (8 * m.length)) =
      blocks ++ (start ++ bigEndian64 (toSize (8 * m.length))))
    (h : (m.length + 1 + zeros) % 64 = 56) (hlt : zeros < 64) :
    ofBytes (sha1Transform state (start ++ bigEndian64 (toSize (8 * m.length)))).digest =
      SecureHash.sha1 (ofBytes m) := by
  have hblock : (start ++ bigEndian64 (toSize (8 * m.length))).length = 64 := by
    rw [List.length_append, hstart]
    rfl
  exact digest_of_absorbed h hlt (hm ▸ habsorbed.transform hblock)

/-- The count is written at the end of the last block. -/
theorem memcpyAt_last {start rest : Bytes} (hstart : start.length = 56) (hrest : rest.length = 8)
    (bits : ℕ) : memcpyAt (start ++ rest) 56 (bigEndian64 bits) = start ++ bigEndian64 bits := by
  have hdrop : rest.drop (bigEndian64 bits).length = [] := List.drop_eq_nil_of_le hrest.le
  rw [← hstart, memcpyAt_append, hdrop, List.append_nil]

/-- Zeros at the start of a buffer. -/
theorem memcpyAt_zeros {buf : Bytes} (hbuf : buf.length = 64) (bits : ℕ) :
    memcpyAt (memcpyAt buf 0 (List.replicate 56 0)) 56 (bigEndian64 bits) =
      List.replicate 56 0 ++ bigEndian64 bits := by
  have hrest : (buf.drop 56).length = 8 := by rw [List.length_drop, hbuf]
  exact memcpyAt_last List.length_replicate hrest bits

/-- The digest of a context. -/
theorem Holds.final (h : Holds ctx m) : ofBytes (sha1Final ctx) = SecureHash.sha1 (ofBytes m) := by
  obtain ⟨⟨blocks, tail, old, rfl, habsorbed, hbuffer, htail⟩, hlen, hcount⟩ := h
  have hidx : ctx.count / 8 % 64 = tail.length := by rw [hcount, index_eq habsorbed htail]
  have hold : old.length = 64 - tail.length := by
    rw [hbuffer, List.length_append] at hlen
    omega
  obtain ⟨n, hn⟩ := habsorbed.dvd
  have hm : (blocks ++ tail).length = 64 * n + tail.length := by rw [List.length_append, hn]
  have hbit : memcpyAt ctx.buffer tail.length [0x80] = tail ++ [0x80] ++ old.drop 1 := by
    rw [hbuffer, memcpyAt_append]
    rfl
  have hsucc : (tail ++ [0x80]).length = tail.length + 1 := List.length_append
  rw [sha1Final, hidx, hbit, hcount]
  dsimp only
  rcases Nat.eq_or_lt_of_le (Nat.succ_le_of_lt htail) with hlast | hlt
  · -- The bit fills the block; what follows is a block of its own.
    have hblock : (tail ++ [0x80] ++ old.drop 1).length = 64 := by
      rw [List.length_append, hsucc, List.length_drop]
      omega
    have hdrop : old.drop 1 = [] := List.drop_eq_nil_of_le (by omega)
    rw [if_pos hlast]
    dsimp only
    rw [if_neg (by decide), memcpyAt_zeros hblock]
    rw [hdrop, List.append_nil] at hblock ⊢
    refine digest_of_last 56 (habsorbed.transform hblock) List.length_replicate ?_
      (by omega) (by decide)
    simp only [paddingBytes, List.append_assoc, List.cons_append, List.nil_append]
  rw [if_neg hlt.ne]
  dsimp only
  have hzeros (k : ℕ) : memcpyAt (tail ++ [0x80] ++ old.drop 1) (tail.length + 1)
      (List.replicate k 0) = tail ++ [0x80] ++ List.replicate k 0 ++ (old.drop 1).drop k := by
    rw [← hsucc, memcpyAt_append, List.length_replicate]
  rcases Nat.lt_or_ge 56 (tail.length + 1) with hlong | hshort
  · -- The rest of the block has no room for the count.
    have hdrop : (old.drop 1).drop (64 - (tail.length + 1)) = [] := by
      refine List.drop_eq_nil_of_le ?_
      rw [List.length_drop]
      omega
    have hblock : (tail ++ [0x80] ++ List.replicate (64 - (tail.length + 1)) 0).length = 64 := by
      rw [List.length_append, hsucc, List.length_replicate]
      omega
    rw [if_pos hlong]
    dsimp only
    rw [hzeros, hdrop, List.append_nil, memcpyAt_zeros hblock]
    refine digest_of_last (64 - (tail.length + 1) + 56) (habsorbed.transform hblock)
      List.length_replicate ?_ (by omega) (by omega)
    rw [paddingBytes, ← List.replicate_append_replicate]
    simp only [List.append_assoc, List.cons_append, List.nil_append]
  · have hstart : (tail ++ [0x80] ++ List.replicate (56 - (tail.length + 1)) 0).length = 56 := by
      rw [List.length_append, hsucc, List.length_replicate]
      omega
    have hrest : ((old.drop 1).drop (56 - (tail.length + 1))).length = 8 := by
      rw [List.length_drop, List.length_drop]
      omega
    rw [if_neg (not_lt.2 hshort)]
    dsimp only
    rw [hzeros, memcpyAt_last hstart hrest]
    refine digest_of_last (56 - (tail.length + 1)) habsorbed hstart ?_ (by omega)
      (by omega)
    simp only [paddingBytes, List.append_assoc, List.cons_append, List.nil_append]

/-- However a message is split, whatever the buffer holds at first, its digest is that of the
    standard. The standard is for messages of less than `2 ^ 64` bits; above, its definition is
    read with the length modulo `2 ^ 64`. -/
theorem sha1_updates (buffer : Vector UInt8 64) (parts : List Bytes) :
    ofBytes (sha1Final (parts.foldl sha1Update { sha1Init with buffer := buffer.toList })) =
      SecureHash.sha1 (ofBytes parts.flatten) ∧
    ofBytes (sha1Hash parts.flatten) = SecureHash.sha1 (ofBytes parts.flatten) := by
  have hinit (buffer : Vector UInt8 64) : Holds { sha1Init with buffer := buffer.toList } [] := by
    refine ⟨⟨[], [], buffer.toList, rfl, ⟨⟨0, rfl⟩, rfl⟩, rfl, by decide⟩, ?_, rfl⟩
    exact buffer.length_toList
  have hfold (ctx : Ctx) (m : Bytes) (h : Holds ctx m) (parts : List Bytes) :
      Holds (parts.foldl sha1Update ctx) (m ++ parts.flatten) := by
    induction parts generalizing ctx m with
    | nil =>
      rw [List.flatten_nil, List.append_nil]
      exact h
    | cons part parts ih =>
      rw [List.foldl_cons, List.flatten_cons, ← List.append_assoc]
      exact ih _ _ (h.update part)
  refine ⟨(hfold _ _ (hinit buffer) parts).final, ?_⟩
  exact ((hinit (.replicate 64 0)).update parts.flatten).final

end PS5Torrent.Sha1
