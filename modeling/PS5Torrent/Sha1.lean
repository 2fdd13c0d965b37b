import PS5Torrent.Basic

/-!
# SHA-1

The hash function of `sha1.c`. The compression function is unrolled by five
rounds, in which the registers exchange their names instead of their values.
A context carries the bits hashed so far and the block being filled.
-/

namespace PS5Torrent.Sha1

/-- A 32-bit word. -/
abbrev Word := BitVec 32

def SHA1_DIGEST_SIZE : ℕ := 20

def rotLeft (a : Word) (b : ℕ) : Word := (a <<< b) ||| (a >>> (32 - b))

def f0 (b c d : Word) : Word := (b &&& c) ||| (~~~b &&& d)
def f1 (b c d : Word) : Word := b ^^^ c ^^^ d
def f2 (b c d : Word) : Word := (b &&& c) ||| (b &&& d) ||| (c &&& d)
def f3 (b c d : Word) : Word := b ^^^ c ^^^ d

def k0 : Word := 0x5A827999
def k1 : Word := 0x6ED9EBA1
def k2 : Word := 0x8F1BBCDC
def k3 : Word := 0xCA62C1D6

/-- The five state words, also used as the registers `a` to `e`. -/
structure State where
  a : Word
  b : Word
  c : Word
  d : Word
  e : Word

/-- The new values of `e` and `b` after a round. -/
def round (f : Word → Word → Word → Word) (k : Word) (w : List Word) (a b c d e : Word) (i : ℕ) :
    Word × Word :=
  (rotLeft a 5 + f b c d + e + w.getD i 0 + k, rotLeft b 30)

/-- The body of the round loops: five rounds, rotating the names of the registers. -/
def fiveRounds (f : Word → Word → Word → Word) (k : Word) (w : List Word) (s : State) (i : ℕ) :
    State :=
  let ⟨a, b, c, d, e⟩ := s
  let (e, b) := round f k w a b c d e i
  let (d, a) := round f k w e a b c d (i + 1)
  let (c, e) := round f k w d e a b c (i + 2)
  let (b, d) := round f k w c d e a b (i + 3)
  let (a, c) := round f k w b c d e a (i + 4)
  ⟨a, b, c, d, e⟩

/-- The big-endian word at index `i` of a block. -/
def blockWord (block : Bytes) (i : ℕ) : Word :=
  let byte j : Word := BitVec.ofNat 32 (block.getD (i * 4 + j) 0).toNat
  (byte 0 <<< 24) ||| (byte 1 <<< 16) ||| (byte 2 <<< 8) ||| byte 3

/-- The message schedule: the words of the block, extended to 80. -/
def schedule (block : Bytes) : List Word :=
  (List.range 64).foldl (fun w k =>
      let i := k + 16
      w ++ [rotLeft (w.getD (i - 3) 0 ^^^ w.getD (i - 8) 0 ^^^ w.getD (i - 14) 0 ^^^
        w.getD (i - 16) 0) 1])
    ((List.range 16).map (blockWord block))

/-- The compression function. -/
def sha1Transform (state : State) (block : Bytes) : State :=
  let w := schedule block
  let s := [0, 5, 10, 15].foldl (fiveRounds f0 k0 w) state
  let s := [20, 25, 30, 35].foldl (fiveRounds f1 k1 w) s
  let s := [40, 45, 50, 55].foldl (fiveRounds f2 k2 w) s
  let s := [60, 65, 70, 75].foldl (fiveRounds f3 k3 w) s
  ⟨state.a + s.a, state.b + s.b, state.c + s.c, state.d + s.d, state.e + s.e⟩

/-- A computation in progress: the state, the bits hashed so far (`uint64_t`),
    and the block being filled. -/
structure Ctx where
  state : State
  count : ℕ
  buffer : Bytes

def sha1Init : Ctx where
  state := ⟨0x67452301, 0xEFCDAB89, 0x98BADCFE, 0x10325476, 0xC3D2E1F0⟩
  count := 0
  buffer := List.replicate 64 0

/-- Compress the full blocks at the start of `data`; the rest is returned. -/
def transformBlocks : ℕ → State → Bytes → State × Bytes
  | 0, state, data => (state, data)
  | n + 1, state, data => transformBlocks n (sha1Transform state (data.take 64)) (data.drop 64)

/-- The end of `sha1_update`, from an index `idx` in the buffer where the data
    does not fill it. -/
def updateBlocks (ctx : Ctx) (data : Bytes) (idx : ℕ) : Ctx :=
  let (state, rest) := transformBlocks (data.length / 64) ctx.state data
  { ctx with state := state, buffer := memcpyAt ctx.buffer idx rest }

def sha1Update (ctx : Ctx) (data : Bytes) : Ctx :=
  let idx := ctx.count / 8 % 64
  let ctx := { ctx with count := toSize (ctx.count + data.length * 8) }
  if idx > 0 then
    let fill := 64 - idx
    if data.length < fill then { ctx with buffer := memcpyAt ctx.buffer idx data }
    else
      let buffer := memcpyAt ctx.buffer idx (data.take fill)
      updateBlocks { ctx with state := sha1Transform ctx.state buffer, buffer := buffer }
        (data.drop fill) 0
  else updateBlocks ctx data idx

/-- The eight bytes of a `uint64_t`, big-endian. -/
def bigEndian64 (n : ℕ) : Bytes :=
  [56, 48, 40, 32, 24, 16, 8, 0].map fun s => UInt8.ofNat (n / 2 ^ s)

def wordBytes (w : Word) : Bytes :=
  [24, 16, 8, 0].map fun s => UInt8.ofNat (w >>> s).toNat

def sha1Final (ctx : Ctx) : Bytes :=
  let bits := ctx.count
  let idx := bits / 8 % 64
  let buffer := memcpyAt ctx.buffer idx [0x80]
  let idx := idx + 1
  let (state, idx) := if idx = 64 then (sha1Transform ctx.state buffer, 0) else (ctx.state, idx)
  let (state, buffer) :=
    if idx > 56 then
      let buffer := memcpyAt buffer idx (List.replicate (64 - idx) 0)
      (sha1Transform state buffer, memcpyAt buffer 0 (List.replicate 56 0))
    else (state, memcpyAt buffer idx (List.replicate (56 - idx) 0))
  let state := sha1Transform state (memcpyAt buffer 56 (bigEndian64 bits))
  wordBytes state.a ++ wordBytes state.b ++ wordBytes state.c ++ wordBytes state.d ++
    wordBytes state.e

/-- The digest of a buffer. -/
def sha1Hash (data : Bytes) : Bytes := sha1Final (sha1Update sha1Init data)

@[simp]
theorem length_sha1Hash (data : Bytes) : (sha1Hash data).length = SHA1_DIGEST_SIZE := rfl

example : sha1Hash (lit "abc") = [0xa9, 0x99, 0x3e, 0x36, 0x47, 0x06, 0x81, 0x6a, 0xba, 0x3e,
    0x25, 0x71, 0x78, 0x50, 0xc2, 0x6c, 0x9c, 0xd0, 0xd8, 0x9d] := by
  decide +kernel

end PS5Torrent.Sha1
