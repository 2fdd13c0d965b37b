import PS5Torrent.Library.SecureHash
import PS5Torrent.Sha1
import Mathlib.Data.BitVec

/-!
# The compression function

The compression function of `sha1.c` is that of the standard: the schedule that
is extended in an array is the recursive one (`schedule_eq`), and five unrolled
rounds, which rotate the names of the registers, are five of its steps
(`fiveRounds_eq`).
-/

namespace PS5Torrent.Sha1

open BitString

/-- The registers as the working variables. -/
def State.words (s : State) : SecureHash.Words := ⟨s.a, s.b, s.c, s.d, s.e⟩

theorem rotLeft_eq {n : ℕ} (h : n < 32) (x : Word) : rotLeft x n = SecureHash.rotl n x := by
  rw [rotLeft, SecureHash.rotl, BitVec.rotateLeft_def, Nat.mod_eq_of_lt h]

theorem f0_eq : f0 = SecureHash.ch := by
  have hbit : ∀ x y z : Bool, (x && y || !x && z) = (x && y ^^ !x && z) := by decide
  funext b c d
  ext i hi
  simp only [f0, SecureHash.ch, BitVec.getElem_or, BitVec.getElem_and, BitVec.getElem_not,
    BitVec.getElem_xor]
  exact hbit _ _ _

theorem f2_eq : f2 = SecureHash.maj := by
  have hbit : ∀ x y z : Bool,
      (x && y || x && z || y && z) = (x && y ^^ x && z ^^ y && z) := by decide
  funext b c d
  ext i hi
  simp only [f2, SecureHash.maj, BitVec.getElem_or, BitVec.getElem_and, BitVec.getElem_xor]
  exact hbit _ _ _

/-! ## Rounds -/

/-- Five rounds are five steps with the function and the constant of the rounds. -/
theorem fiveRounds_eq {f : Word → Word → Word → Word} {k : Word} {w : List Word}
    {schedule : ℕ → Word} (s : State) {i : ℕ} (hw : ∀ j < 5, w.getD (i + j) 0 = schedule (i + j))
    (hf : ∀ j < 5, SecureHash.f (i + j) = f) (hk : ∀ j < 5, SecureHash.constant (i + j) = k) :
    (fiveRounds f k w s i).words =
      [i, i + 1, i + 2, i + 3, i + 4].foldl (SecureHash.step schedule) s.words := by
  have hround (a b c d e : Word) (j : ℕ) (hj : j < 5) :
      SecureHash.step schedule ⟨a, b, c, d, e⟩ (i + j) =
        ⟨(round f k w a b c d e (i + j)).1, a, (round f k w a b c d e (i + j)).2, c, d⟩ := by
    rw [SecureHash.step, hf j hj, hk j hj, ← hw j hj, round, rotLeft_eq (by decide),
      rotLeft_eq (by decide), add_right_comm]
  simp only [List.foldl_cons, List.foldl_nil, State.words]
  rw [← Nat.add_zero i, hround _ _ _ _ _ 0 (by decide), hround _ _ _ _ _ 1 (by decide),
    hround _ _ _ _ _ 2 (by decide), hround _ _ _ _ _ 3 (by decide),
    hround _ _ _ _ _ 4 (by decide)]
  rfl

/-- The steps in fives. -/
theorem range_five_mul (n : ℕ) :
    List.range (5 * n) =
      ((List.range n).map (5 * ·)).flatMap fun i => [i, i + 1, i + 2, i + 3, i + 4] := by
  induction n with
  | zero => rfl
  | succ n ih =>
    rw [List.range_succ, List.map_append, List.flatMap_append, ← ih, Nat.mul_succ]
    simp only [List.range_succ, List.append_assoc]
    rfl

/-- A loop of rounds, whose steps have the same function and constant. -/
theorem foldl_fiveRounds {f : Word → Word → Word → Word} {k : Word} {w : List Word}
    {schedule : ℕ → Word} (lo hi : ℕ) (hround : ∀ t, lo ≤ t → t ≤ hi →
      w.getD t 0 = schedule t ∧ SecureHash.f t = f ∧ SecureHash.constant t = k)
    {is : List ℕ} (his : ∀ i ∈ is, lo ≤ i ∧ i + 4 ≤ hi) (s : State) :
    (is.foldl (fiveRounds f k w) s).words =
      (is.flatMap fun i => [i, i + 1, i + 2, i + 3, i + 4]).foldl (SecureHash.step schedule)
        s.words := by
  induction is generalizing s with
  | nil => rfl
  | cons i is ih =>
    obtain ⟨hlo, hhi⟩ := his i List.mem_cons_self
    have hsteps (j : ℕ) (hj : j < 5) := hround (i + j) (by omega) (by omega)
    rw [List.foldl_cons, List.flatMap_cons, List.foldl_append,
      ih (fun i hi => his i (List.mem_cons_of_mem _ hi)),
      fiveRounds_eq s (fun j hj => (hsteps j hj).1) (fun j hj => (hsteps j hj).2.1)
        fun j hj => (hsteps j hj).2.2]

/-! ## Schedule -/

/-- One more byte below those of a number. -/
theorem shiftLeft_or_byte (n s : ℕ) {b : ℕ} (hb : b < 256) :
    n <<< (s + 8) ||| b <<< s = (n * 256 + b) <<< s := by
  have hadd : n <<< 8 ||| b = n * 256 + b := by
    rw [← Nat.shiftLeft_add_eq_or_of_lt hb, Nat.shiftLeft_eq]
  rw [Nat.add_comm, Nat.shiftLeft_add, ← Nat.shiftLeft_or_distrib, hadd]

theorem toNat_ofNat_shiftLeft {b s : ℕ} (hb : b < 256) (hs : s ≤ 24) :
    (BitVec.ofNat 32 b <<< s).toNat = b <<< s := by
  have hpow : 2 ^ s ≤ 2 ^ 24 := Nat.pow_le_pow_right (by decide) hs
  have hlt : b * 2 ^ s < 2 ^ 32 := by
    calc b * 2 ^ s ≤ 255 * 2 ^ 24 := Nat.mul_le_mul (Nat.le_of_lt_succ hb) hpow
      _ < 2 ^ 32 := by decide
  rw [BitVec.toNat_shiftLeft, BitVec.toNat_ofNat, Nat.mod_eq_of_lt (hb.trans (by decide)),
    Nat.shiftLeft_eq, Nat.mod_eq_of_lt hlt]

/-- Four bytes, the most significant first. -/
theorem word_of_bytes (b₀ b₁ b₂ b₃ : UInt8) :
    (BitVec.ofNat 32 b₀.toNat <<< 24 ||| BitVec.ofNat 32 b₁.toNat <<< 16 |||
      BitVec.ofNat 32 b₂.toNat <<< 8 ||| BitVec.ofNat 32 b₃.toNat : Word) =
      BitVec.ofNat 32 (value (ofBytes [b₀, b₁, b₂, b₃])) := by
  have h₀ : b₀.toNat < 256 := b₀.toNat_lt
  have h₁ : b₁.toNat < 256 := b₁.toNat_lt
  have h₂ : b₂.toNat < 256 := b₂.toNat_lt
  have h₃ : b₃.toNat < 256 := b₃.toNat_lt
  have hvalue : value (ofBytes [b₀, b₁, b₂, b₃]) =
      ((b₀.toNat * 256 + b₁.toNat) * 256 + b₂.toNat) * 256 + b₃.toNat := by
    simp only [ofBytes, List.flatMap_cons, List.flatMap_nil, value_append, value_bits,
      length_bits, List.length_append, List.append_nil]
    omega
  apply BitVec.eq_of_toNat_eq
  rw [hvalue, BitVec.toNat_or, BitVec.toNat_or, BitVec.toNat_or,
    toNat_ofNat_shiftLeft h₀ le_rfl, toNat_ofNat_shiftLeft h₁ (by decide),
    toNat_ofNat_shiftLeft h₂ (by decide), BitVec.toNat_ofNat, BitVec.toNat_ofNat,
    shiftLeft_or_byte _ 16 h₁, shiftLeft_or_byte _ 8 h₂, Nat.mod_eq_of_lt (by omega),
    Nat.mod_eq_of_lt (by omega)]
  exact shiftLeft_or_byte _ 0 h₃

/-- Four bytes of a block as a word. -/
theorem blockWord_eq {block : Bytes} {i : ℕ} (h : i * 4 + 4 ≤ block.length) :
    blockWord block i = SecureHash.word (ofBytes block) i := by
  obtain ⟨b₀, b₁, b₂, b₃, rest, hdrop⟩ :
      ∃ b₀ b₁ b₂ b₃ rest, block.drop (i * 4) = b₀ :: b₁ :: b₂ :: b₃ :: rest := by
    have hlen : 4 ≤ (block.drop (i * 4)).length := by
      rw [List.length_drop]
      omega
    match block.drop (i * 4), hlen with
    | b₀ :: b₁ :: b₂ :: b₃ :: rest, _ => exact ⟨b₀, b₁, b₂, b₃, rest, rfl⟩
  have hget (j : ℕ) : block.getD (i * 4 + j) 0 = (b₀ :: b₁ :: b₂ :: b₃ :: rest).getD j 0 := by
    rw [← hdrop, List.getD_eq_getElem?_getD, List.getD_eq_getElem?_getD, List.getElem?_drop]
  have hword : (ofBytes block).drop (32 * i) = ofBytes (b₀ :: b₁ :: b₂ :: b₃ :: rest) := by
    rw [← hdrop, ← drop_ofBytes]
    congr 1
    omega
  have htake : (ofBytes (b₀ :: b₁ :: b₂ :: b₃ :: rest)).take 32 = ofBytes [b₀, b₁, b₂, b₃] :=
    take_ofBytes _ 4
  rw [SecureHash.word, hword, htake]
  simp only [blockWord, hget, List.getD_cons_zero, List.getD_cons_succ]
  exact word_of_bytes b₀ b₁ b₂ b₃

/-- The schedule in an array is the recursive one. -/
theorem schedule_eq {block : Bytes} (hlen : block.length = 64) :
    schedule block = (List.range 80).map (SecureHash.schedule (ofBytes block)) := by
  have hextend (n : ℕ) :
      (List.range n).foldl (fun w k =>
          let i := k + 16
          w ++ [rotLeft (w.getD (i - 3) 0 ^^^ w.getD (i - 8) 0 ^^^ w.getD (i - 14) 0 ^^^
            w.getD (i - 16) 0) 1])
        ((List.range 16).map (blockWord block)) =
      (List.range (16 + n)).map (SecureHash.schedule (ofBytes block)) := by
    induction n with
    | zero =>
      refine List.map_congr_left fun i hi => ?_
      have hlt := List.mem_range.1 hi
      rw [SecureHash.schedule_of_le (Nat.le_of_lt_succ hlt), blockWord_eq (by omega)]
    | succ n ih =>
      have hget (k : ℕ) (hk : k < 16 + n) :
          ((List.range (16 + n)).map (SecureHash.schedule (ofBytes block))).getD k 0 =
            SecureHash.schedule (ofBytes block) k := by
        rw [List.getD_eq_getElem?_getD, List.getElem?_map, List.getElem?_range hk]
        rfl
      rw [List.range_succ (n := n), List.foldl_append, ih, ← Nat.add_assoc, List.range_succ (n := 16 + n),
        List.map_append, List.map_singleton, List.foldl_cons, List.foldl_nil,
        SecureHash.schedule_of_lt (by omega)]
      dsimp only
      rw [rotLeft_eq (by decide), hget _ (by omega), hget _ (by omega), hget _ (by omega),
        hget _ (by omega), Nat.add_comm n 16]
  exact hextend 64

/-- The compression function is that of the standard. -/
theorem sha1Transform_eq (state : State) {block : Bytes} (hlen : block.length = 64) :
    (sha1Transform state block).words = SecureHash.compress state.words (ofBytes block) := by
  have hw : ∀ t < 80, (schedule block).getD t 0 = SecureHash.schedule (ofBytes block) t := by
    intro t ht
    rw [schedule_eq hlen, List.getD_eq_getElem?_getD, List.getElem?_map, List.getElem?_range ht]
    rfl
  have hsteps : List.range 80 = ([0, 5, 10, 15] ++ [20, 25, 30, 35] ++ [40, 45, 50, 55] ++
      [60, 65, 70, 75]).flatMap fun i => [i, i + 1, i + 2, i + 3, i + 4] := range_five_mul 16
  rw [SecureHash.compress, hsteps, List.flatMap_append, List.flatMap_append, List.flatMap_append,
    List.foldl_append, List.foldl_append, List.foldl_append,
    ← foldl_fiveRounds 0 19 (fun t _ h => ⟨hw t (by omega), SecureHash.stage_first h⟩)
      (by decide) state,
    ← foldl_fiveRounds 20 39 (fun t hlt h => ⟨hw t (by omega), SecureHash.stage_second hlt h⟩)
      (by decide),
    ← foldl_fiveRounds 40 59 (fun t hlt h => ⟨hw t (by omega), SecureHash.stage_third hlt h⟩)
      (by decide),
    ← foldl_fiveRounds 60 79 (fun t hlt h => ⟨hw t (by omega), SecureHash.stage_fourth hlt⟩)
      (by decide), ← f0_eq, ← f2_eq, sha1Transform]
  simp only [State.words, SecureHash.Words.mk.injEq]
  refine ⟨add_comm _ _, add_comm _ _, add_comm _ _, add_comm _ _, add_comm _ _⟩

end PS5Torrent.Sha1
