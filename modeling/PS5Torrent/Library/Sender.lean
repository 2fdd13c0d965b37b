import Mathlib.Data.Nat.Notation
import Mathlib.Data.List.Infix

/-!
# The sending end of a stream

A stream socket takes a part of what it is given at each call, or fails. The
loop that sends the rest again (`Sender.sendAll`) hands over the start of the
data, all of it if no call fails (`sendAll_eq`), so that what several loops
hand over is the start of it all (`sendAll_append`).

A call that is interrupted is made again and changes nothing; the calls here
are those that are not.
-/

structure Sender (α : Type) where
  /-- What was taken. -/
  sent : List α
  /-- How much each call takes at most; `none` is an error. -/
  room : ℕ → Option ℕ
  calls : ℕ

namespace Sender

variable {α : Type}

/-- Offer data: how much of it is taken, unless the call fails. -/
def send (data : List α) (s : Sender α) : Option ℕ × Sender α :=
  match s.room s.calls with
  | none => (none, { s with calls := s.calls + 1 })
  | some n =>
    (some (min n data.length), { s with sent := s.sent ++ data.take n, calls := s.calls + 1 })

/-- The loop of `sendAll`; each call but the last takes something. -/
def sendLoop : ℕ → List α → Sender α → Bool × Sender α
  | 0, data, s => (data.isEmpty, s)
  | fuel + 1, data, s =>
    if data.isEmpty then (true, s)
    else
      match s.send data with
      | (none, s) => (false, s)
      | (some n, s) => if n = 0 then (false, s) else sendLoop fuel (data.drop n) s

/-- Send data, in as many calls as it takes: whether all of it is taken. -/
def sendAll (data : List α) (s : Sender α) : Bool × Sender α := sendLoop data.length data s

/-- Every call takes something. -/
def Takes (s : Sender α) : Prop := ∀ k, ∃ n, s.room k = some (n + 1)

variable {s : Sender α} {data data' : List α}

theorem room_sendLoop (fuel : ℕ) (data : List α) (s : Sender α) :
    (sendLoop fuel data s).2.room = s.room := by
  induction fuel generalizing data s with
  | zero => rfl
  | succ fuel ih =>
    rw [sendLoop]
    split
    · rfl
    · rw [send]
      cases s.room s.calls with
      | none => rfl
      | some n =>
        dsimp only
        split
        · rfl
        · exact ih _ _

/-- What is sent is the start of the data, and all of it exactly if the loop succeeds. -/
theorem sendLoop_eq {fuel : ℕ} (hfuel : data.length ≤ fuel) (s : Sender α) :
    ∃ n ≤ data.length, (sendLoop fuel data s).2.sent = s.sent ++ data.take n ∧
      ((sendLoop fuel data s).1 ↔ n = data.length) ∧ (s.Takes → n = data.length) := by
  induction fuel generalizing data s with
  | zero =>
    obtain rfl := List.eq_nil_of_length_eq_zero (Nat.eq_zero_of_le_zero hfuel)
    exact ⟨0, le_rfl, (List.append_nil _).symm, iff_of_true rfl rfl, fun _ => rfl⟩
  | succ fuel ih =>
    rw [sendLoop]
    split
    case isTrue hnil =>
      obtain rfl := List.isEmpty_iff.1 hnil
      exact ⟨0, le_rfl, (List.append_nil _).symm, iff_of_true rfl rfl, fun _ => rfl⟩
    case isFalse hne =>
      have hpos : 0 < data.length := List.length_pos_iff.2 fun h => hne (List.isEmpty_iff.2 h)
      have hstop {s' : Sender α} (hsent : s'.sent = s.sent) (htakes : ¬s.Takes) :
          ∃ n ≤ data.length, (false, s').2.sent = s.sent ++ data.take n ∧
            ((false, s').1 ↔ n = data.length) ∧ (s.Takes → n = data.length) :=
        ⟨0, Nat.zero_le _, by rw [List.take_zero, List.append_nil]; exact hsent,
          iff_of_false Bool.false_ne_true hpos.ne, fun h => absurd h htakes⟩
      rw [send]
      cases hroom : s.room s.calls with
      | none =>
        refine hstop rfl fun htakes => ?_
        obtain ⟨n, hn⟩ := htakes s.calls
        rw [hroom] at hn
        cases hn
      | some k =>
        dsimp only
        split
        case isTrue hzero =>
          obtain rfl : k = 0 := by omega
          refine hstop (List.append_nil _) fun htakes => ?_
          obtain ⟨n, hn⟩ := htakes s.calls
          rw [hroom] at hn
          cases hn
        case isFalse htaken =>
          have hrest : (data.drop (min k data.length)).length ≤ fuel := by
            rw [List.length_drop]
            omega
          obtain ⟨n, hn, hsent, hok, htakes⟩ :=
            ih hrest { s with sent := s.sent ++ data.take k, calls := s.calls + 1 }
          rw [List.length_drop] at hn hok htakes
          refine ⟨min k data.length + n, by omega, ?_, hok.trans ?_, fun h => ?_⟩
          · rw [hsent, List.append_assoc, List.take_add, List.take_eq_take_min (i := k)]
          · omega
          · have := htakes h
            omega

/-- What is sent is the start of the data, and all of it exactly if the loop succeeds, as it does if
    every call takes something. -/
theorem sendAll_eq (data : List α) (s : Sender α) :
    ∃ n ≤ data.length, (sendAll data s).2.sent = s.sent ++ data.take n ∧
      ((sendAll data s).1 ↔ n = data.length) ∧ (s.Takes → n = data.length) :=
  sendLoop_eq le_rfl s

/-- Data that is sent after other data, if that was sent, makes up the start of both. -/
theorem sendAll_append (data data' : List α) (s : Sender α) :
    ∃ n ≤ data.length + data'.length,
      (if (sendAll data s).1 then sendAll data' (sendAll data s).2 else sendAll data s).2.sent =
        s.sent ++ (data ++ data').take n ∧
      (s.Takes → n = data.length + data'.length) := by
  obtain ⟨n, hn, hsent, hok, htakes⟩ := sendAll_eq data s
  split
  case isTrue hall =>
    obtain ⟨n', hn', hsent', -, htakes'⟩ := sendAll_eq data' (sendAll data s).2
    obtain rfl := hok.1 hall
    refine ⟨data.length + n', by omega, ?_, fun h => ?_⟩
    · rw [hsent', hsent, List.append_assoc, List.take_length, List.take_length_add_append]
    · have hroom : (sendAll data s).2.Takes := by
        intro k
        rw [sendAll, room_sendLoop]
        exact h k
      rw [htakes' hroom]
  case isFalse hpart =>
    have hne : n ≠ data.length := fun h => hpart (hok.2 h)
    refine ⟨n, by omega, ?_, fun h => absurd (htakes h) hne⟩
    rw [hsent, List.take_append_of_le_length hn]

end Sender
