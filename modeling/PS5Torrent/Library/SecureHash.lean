import PS5Torrent.Library.BitString

/-!
# The Secure Hash Algorithm

SHA-1 as FIPS 180-4 defines it, on strings of bits: the padding of a message to
blocks of 512 bits, the schedule of a block, the 80 steps over it in which the
values move through the five working variables, and the digest of 160 bits.
The number of zeros in the padding is the smallest that fits (`padLength_eq`).
-/

namespace SecureHash

open BitString

abbrev Word := BitVec 32

/-! ## Functions and constants -/

/-- Rotation to the left. -/
def rotl (n : ℕ) (x : Word) : Word := x.rotateLeft n

def ch (x y z : Word) : Word := (x &&& y) ^^^ (~~~x &&& z)

def parity (x y z : Word) : Word := x ^^^ y ^^^ z

def maj (x y z : Word) : Word := (x &&& y) ^^^ (x &&& z) ^^^ (y &&& z)

/-- The function of the step `t`. -/
def f (t : ℕ) : Word → Word → Word → Word :=
  if t ≤ 19 then ch else if t ≤ 39 then parity else if t ≤ 59 then maj else parity

/-- The constant of the step `t`. -/
def constant (t : ℕ) : Word :=
  if t ≤ 19 then 0x5a827999 else if t ≤ 39 then 0x6ed9eba1
  else if t ≤ 59 then 0x8f1bbcdc else 0xca62c1d6

/-- The first twenty steps. -/
theorem stage_first {t : ℕ} (h : t ≤ 19) : f t = ch ∧ constant t = 0x5a827999 :=
  ⟨if_pos h, if_pos h⟩

theorem stage_second {t : ℕ} (hlt : 19 < t) (h : t ≤ 39) :
    f t = parity ∧ constant t = 0x6ed9eba1 := by
  rw [f, constant, if_neg (not_le.2 hlt), if_pos h, if_neg (not_le.2 hlt), if_pos h]
  exact ⟨rfl, rfl⟩

theorem stage_third {t : ℕ} (hlt : 39 < t) (h : t ≤ 59) :
    f t = maj ∧ constant t = 0x8f1bbcdc := by
  have hfirst : ¬t ≤ 19 := by omega
  rw [f, constant, if_neg hfirst, if_neg (not_le.2 hlt), if_pos h, if_neg hfirst,
    if_neg (not_le.2 hlt), if_pos h]
  exact ⟨rfl, rfl⟩

theorem stage_fourth {t : ℕ} (hlt : 59 < t) : f t = parity ∧ constant t = 0xca62c1d6 := by
  have hfirst : ¬t ≤ 19 := by omega
  have hsecond : ¬t ≤ 39 := by omega
  rw [f, constant, if_neg hfirst, if_neg hsecond, if_neg (not_le.2 hlt), if_neg hfirst,
    if_neg hsecond, if_neg (not_le.2 hlt)]
  exact ⟨rfl, rfl⟩

/-! ## Padding -/

theorem exists_padLength (l : ℕ) : ∃ k, (l + 1 + k) % 512 = 448 := by
  refine ⟨960 - (l + 1) % 512, ?_⟩
  have := Nat.mod_lt (l + 1) (show 0 < 512 by decide)
  omega

/-- The smallest number of zeros after which 64 bits are left in a block. -/
def padLength (l : ℕ) : ℕ := Nat.find (exists_padLength l)

/-- What is appended to a message of `l` bits: a one, zeros, and the length. -/
def padding (l : ℕ) : List Bool := true :: List.replicate (padLength l) false ++ bits 64 l

/-- Fewer than 512 zeros that leave 64 bits are the padding. -/
theorem padLength_eq {l k : ℕ} (h : (l + 1 + k) % 512 = 448) (hk : k < 512) : padLength l = k := by
  have hspec : (l + 1 + padLength l) % 512 = 448 := Nat.find_spec (exists_padLength l)
  have hmin : padLength l ≤ k := Nat.find_min' (exists_padLength l) h
  omega

/-! ## Computation -/

/-- The word at index `t` of a block. -/
def word (block : List Bool) (t : ℕ) : Word :=
  BitVec.ofNat 32 (value ((block.drop (32 * t)).take 32))

/-- The message schedule of a block. -/
def schedule (block : List Bool) (t : ℕ) : Word :=
  if t ≤ 15 then word block t
  else rotl 1 (schedule block (t - 3) ^^^ schedule block (t - 8) ^^^ schedule block (t - 14) ^^^
    schedule block (t - 16))

/-- The five words of a hash value, and the five working variables. -/
@[ext]
structure Words where
  a : Word
  b : Word
  c : Word
  d : Word
  e : Word

/-- The initial hash value. -/
def initial : Words := ⟨0x67452301, 0xefcdab89, 0x98badcfe, 0x10325476, 0xc3d2e1f0⟩

/-- The step `t` over a schedule. -/
def step (w : ℕ → Word) (s : Words) (t : ℕ) : Words where
  a := rotl 5 s.a + f t s.b s.c s.d + s.e + constant t + w t
  b := s.a
  c := rotl 30 s.b
  d := s.c
  e := s.d

/-- The hash value after a block. -/
def compress (h : Words) (block : List Bool) : Words :=
  let s := (List.range 80).foldl (step (schedule block)) h
  ⟨s.a + h.a, s.b + h.b, s.c + h.c, s.d + h.d, s.e + h.e⟩

/-- The hash value after the first `n` blocks of a message. -/
def hashBlocks : ℕ → Words → List Bool → Words
  | 0, h, _ => h
  | n + 1, h, message => hashBlocks n (compress h (message.take 512)) (message.drop 512)

/-- The digest of a message. -/
def sha1 (message : List Bool) : List Bool :=
  let padded := message ++ padding message.length
  let h := hashBlocks (padded.length / 512) initial padded
  bits 32 h.a.toNat ++ bits 32 h.b.toNat ++ bits 32 h.c.toNat ++ bits 32 h.d.toNat ++
    bits 32 h.e.toNat

theorem schedule_of_le {block : List Bool} {t : ℕ} (h : t ≤ 15) :
    schedule block t = word block t := by rw [schedule, if_pos h]

theorem schedule_of_lt {block : List Bool} {t : ℕ} (h : 15 < t) :
    schedule block t = rotl 1 (schedule block (t - 3) ^^^ schedule block (t - 8) ^^^
      schedule block (t - 14) ^^^ schedule block (t - 16)) := by
  rw [schedule, if_neg (not_le.2 h)]

/-- The blocks of a message in two parts. -/
theorem hashBlocks_append {m n : ℕ} {h : Words} {message message' : List Bool}
    (hlen : message.length = 512 * m) :
    hashBlocks (m + n) h (message ++ message') = hashBlocks n (hashBlocks m h message) message' := by
  induction m generalizing h message with
  | zero =>
    obtain rfl := List.length_eq_zero_iff.1 hlen
    rw [Nat.zero_add, List.nil_append, hashBlocks]
  | succ m ih =>
    have hle : 512 ≤ message.length := by omega
    rw [Nat.succ_add, hashBlocks, hashBlocks, List.take_append_of_le_length hle,
      List.drop_append_of_le_length hle]
    refine ih ?_
    rw [List.length_drop]
    omega

end SecureHash
