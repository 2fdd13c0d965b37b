import Mathlib.Data.List.Basic

/-!
# Buffers

A buffer is a list of fixed length. `write` copies to a position of it, and is
undefined where the copy would reach past its end: a computation that is defined
has written within its buffer only. Writing two pieces one after the other is
writing them as one (`write_write`), and what is written at the start of a
buffer is a prefix of it (`prefix_of_write`).
-/

namespace Buffer

variable {α : Type} {buf buf' src src' : List α} {pos : ℕ}

/-- The buffer with a part of it written over. -/
def write (buf : List α) (pos : ℕ) (src : List α) : Option (List α) :=
  if pos + src.length ≤ buf.length then
    some (buf.take pos ++ src ++ buf.drop (pos + src.length))
  else none

theorem write_of_le (h : pos + src.length ≤ buf.length) :
    write buf pos src = some (buf.take pos ++ src ++ buf.drop (pos + src.length)) := if_pos h

theorem write_eq_some (h : write buf pos src = some buf') :
    pos + src.length ≤ buf.length ∧ buf' = buf.take pos ++ src ++ buf.drop (pos + src.length) := by
  rw [write] at h
  split at h
  · exact ⟨‹_›, (Option.some.inj h).symm⟩
  · cases h

theorem length_write (h : write buf pos src = some buf') : buf'.length = buf.length := by
  obtain ⟨hle, rfl⟩ := write_eq_some h
  rw [List.length_append, List.length_append, List.length_take, List.length_drop]
  omega

theorem exists_write (buf : List α) (pos : ℕ) (src : List α) (h : pos + src.length ≤ buf.length) :
    ∃ buf', write buf pos src = some buf' ∧ buf'.length = buf.length :=
  ⟨_, write_of_le h, length_write (write_of_le h)⟩

/-- Two pieces are written as one. -/
theorem write_write (buf : List α) (pos : ℕ) (src src' : List α) :
    (write buf pos src).bind (fun buf' => write buf' (pos + src.length) src') =
      write buf pos (src ++ src') := by
  by_cases h : pos + src.length ≤ buf.length
  · have hlength : (buf.take pos ++ src ++ buf.drop (pos + src.length)).length = buf.length :=
      length_write (write_of_le h)
    have hprefix : (buf.take pos ++ src).length = pos + src.length := by
      rw [List.length_append, List.length_take]
      omega
    rw [write_of_le h, Option.bind_some, write, write, hlength, List.length_append]
    split
    case isTrue h' =>
      rw [if_pos (by omega), ← List.append_assoc (buf.take pos), List.take_left' hprefix,
        ← List.drop_drop, List.drop_left' hprefix, List.drop_drop, Nat.add_assoc]
    case isFalse h' => rw [if_neg (by omega)]
  · rw [write, if_neg h, Option.bind_none, write, if_neg (by rw [List.length_append]; omega)]

theorem take_write (h : write buf pos src = some buf') :
    buf'.take (pos + src.length) = buf.take pos ++ src := by
  obtain ⟨hle, rfl⟩ := write_eq_some h
  rw [List.take_left']
  rw [List.length_append, List.length_take]
  omega

/-- What is written at the start of a buffer is a prefix of it. -/
theorem prefix_of_write (h : write buf 0 src = some buf') : src <+: buf' := by
  obtain ⟨-, rfl⟩ := write_eq_some h
  exact List.prefix_append _ _

end Buffer
