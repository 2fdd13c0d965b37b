import Mathlib.Data.List.Induction
import Mathlib.Data.Nat.Bitwise
import Mathlib.Tactic.Ring

/-!
# Bit strings

Numbers as strings of bits, the most significant first: `bits` writes the last
bits of a number, `value` reads a string. The bits of a string of bytes are
those of its bytes, one after the other (`ofBytes`), so that a part of the
bytes has the part of the bits that is eight times as long.
-/

namespace BitString

/-- The last `n` bits of a number. -/
def bits : ℕ → ℕ → List Bool
  | 0, _ => []
  | n + 1, x => bits n (x / 2) ++ [decide (x % 2 = 1)]

/-- The number a string of bits denotes. -/
def value (bs : List Bool) : ℕ := bs.foldl (fun n b => n * 2 + b.toNat) 0

/-- The bits of a string of bytes. -/
def ofBytes (data : List UInt8) : List Bool := data.flatMap fun b => bits 8 b.toNat

variable {data data' : List UInt8} {k n : ℕ}

/-! ## Numbers -/

@[simp]
theorem length_bits (n x : ℕ) : (bits n x).length = n := by
  induction n generalizing x with
  | zero => rfl
  | succ n ih => rw [bits, List.length_append, ih, List.length_singleton]

theorem value_append_singleton (bs : List Bool) (b : Bool) :
    value (bs ++ [b]) = value bs * 2 + b.toNat := by
  rw [value, List.foldl_append]
  rfl

/-- The bits of a number are read back. -/
theorem value_bits (n x : ℕ) : value (bits n x) = x % 2 ^ n := by
  induction n generalizing x with
  | zero => rw [pow_zero, Nat.mod_one]; rfl
  | succ n ih =>
    have hbit : (decide (x % 2 = 1)).toNat = x % 2 := by
      rcases Nat.mod_two_eq_zero_or_one x with h | h <;> rw [h] <;> rfl
    rw [bits, value_append_singleton, ih, hbit, pow_succ', Nat.mod_mul, Nat.add_comm,
      Nat.mul_comm 2]

theorem value_append (bs bs' : List Bool) :
    value (bs ++ bs') = value bs * 2 ^ bs'.length + value bs' := by
  induction bs' using List.reverseRecOn with
  | nil => simp [value]
  | append_singleton bs' b ih =>
    rw [← List.append_assoc, value_append_singleton, ih, value_append_singleton,
      List.length_append, List.length_singleton, pow_succ]
    ring

/-- The bits of a number in two parts. -/
theorem bits_add (m n x : ℕ) : bits (m + n) x = bits m (x / 2 ^ n) ++ bits n x := by
  induction n generalizing x with
  | zero => rw [pow_zero, Nat.div_one, bits, List.append_nil, Nat.add_zero]
  | succ n ih =>
    rw [← Nat.add_assoc, bits, ih, bits, List.append_assoc, Nat.div_div_eq_div_mul, ← pow_succ']

/-- Higher bits do not matter. -/
theorem bits_mod (n x : ℕ) : bits n (x % 2 ^ n) = bits n x := by
  induction n generalizing x with
  | zero => rfl
  | succ n ih =>
    have hdiv : x % 2 ^ (n + 1) / 2 = x / 2 % 2 ^ n := by
      rw [pow_succ', Nat.mod_mul_right_div_self]
    have hmod : x % 2 ^ (n + 1) % 2 = x % 2 := Nat.mod_mod_of_dvd x (dvd_pow_self 2 n.succ_ne_zero)
    rw [bits, hdiv, ih, hmod, bits]

/-! ## Bytes -/

theorem ofBytes_append (data data' : List UInt8) :
    ofBytes (data ++ data') = ofBytes data ++ ofBytes data' := List.flatMap_append

@[simp]
theorem length_ofBytes (data : List UInt8) : (ofBytes data).length = 8 * data.length := by
  induction data with
  | nil => rfl
  | cons b data ih =>
    rw [ofBytes, List.flatMap_cons, List.length_append, length_bits, ← ofBytes, ih,
      List.length_cons]
    ring

theorem take_ofBytes (data : List UInt8) (k : ℕ) :
    (ofBytes data).take (8 * k) = ofBytes (data.take k) := by
  rcases le_total k data.length with h | h
  · have hlen : (ofBytes (data.take k)).length = 8 * k := by
      rw [length_ofBytes, List.length_take, min_eq_left h]
    conv_lhs => rw [← List.take_append_drop k data, ofBytes_append, ← hlen]
    exact List.take_left
  · rw [List.take_of_length_le h, List.take_of_length_le]
    rw [length_ofBytes]
    exact Nat.mul_le_mul_left 8 h

theorem drop_ofBytes (data : List UInt8) (k : ℕ) :
    (ofBytes data).drop (8 * k) = ofBytes (data.drop k) := by
  rcases le_total k data.length with h | h
  · have hlen : (ofBytes (data.take k)).length = 8 * k := by
      rw [length_ofBytes, List.length_take, min_eq_left h]
    conv_lhs => rw [← List.take_append_drop k data, ofBytes_append, ← hlen]
    exact List.drop_left
  · rw [List.drop_eq_nil_of_le h, List.drop_eq_nil_of_le]
    · rfl
    · rw [length_ofBytes]
      exact Nat.mul_le_mul_left 8 h

/-- The bits of a byte that is cut off a number. -/
theorem bits_ofNat (x : ℕ) : bits 8 (UInt8.ofNat x).toNat = bits 8 x := by
  rw [UInt8.toNat_ofNat', ← bits_mod 8 x]

theorem ofBytes_replicate_zero (k : ℕ) :
    ofBytes (List.replicate k 0) = List.replicate (8 * k) false := by
  induction k with
  | zero => rfl
  | succ k ih =>
    rw [List.replicate_succ, ofBytes, List.flatMap_cons, ← ofBytes, ih, Nat.mul_succ,
      Nat.add_comm, ← List.replicate_append_replicate]
    rfl

/-- A number in bytes, the most significant first. -/
theorem ofBytes_bigEndian (n x : ℕ) :
    ofBytes ((List.range n).reverse.map fun i => UInt8.ofNat (x / 2 ^ (8 * i))) =
      bits (8 * n) x := by
  induction n with
  | zero => rfl
  | succ n ih =>
    rw [List.range_succ, List.reverse_append, List.reverse_singleton, List.singleton_append,
      List.map_cons, ofBytes, List.flatMap_cons, bits_ofNat, ← ofBytes, ih, Nat.mul_succ,
      Nat.add_comm, bits_add]

end BitString
