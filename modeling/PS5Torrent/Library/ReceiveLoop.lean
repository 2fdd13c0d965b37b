import PS5Torrent.Library.Receiver

/-!
# Receiving in a loop

A stream is received piece by piece, up to a length or its end. However it
arrives, what a loop receives is the start of the stream (`recvUpTo_eq`).
-/

namespace Receiver

variable {α : Type}

/-- A receive; nothing comes at the end of the stream, and on an error. -/
def recvSome (len : ℕ) (r : Receiver α) : List α × Receiver α :=
  match recv len r with
  | .ok chunk r => (chunk, r)
  | .error _ r => ([], r)

/-- The loop that receives up to a length; each receive but the last brings
    something. -/
def recvUpTo : ℕ → ℕ → Receiver α → List α × Receiver α
  | 0, _, r => ([], r)
  | fuel + 1, len, r =>
    if len = 0 then ([], r)
    else
      match recvSome len r with
      | (chunk, r) =>
        if chunk.isEmpty then ([], r)
        else
          match recvUpTo fuel (len - chunk.length) r with
          | (rest, r) => (chunk ++ rest, r)

/-- A receive brings the start of what is to come, and nothing only if nothing is. -/
theorem recvSome_eq {len : ℕ} (hlen : 0 < len) (r : Receiver α) :
    ∃ n r', recvSome len r = (r.unread.take n, r') ∧ After r n r' ∧ n ≤ len ∧ n ≤ r.unread.length ∧
      (n = 0 → r.unread = []) := by
  by_cases hr : r.unread = []
  · obtain ⟨r', hafter, h⟩ : ∃ r', After r 0 r' ∧ (recv len r = .ok [] r' ∨
        recv len r = .error () r') := recv_of_unread_eq_nil hr
    refine ⟨0, r', ?_, hafter, Nat.zero_le _, Nat.zero_le _, fun _ => hr⟩
    rcases h with h | h
    · rw [recvSome, h, List.take_zero]
    · rw [recvSome, h, List.take_zero]
  · obtain ⟨n, r', hpos, hle, hunread, h, hafter⟩ := recv_of_unread hlen hr
    refine ⟨n, r', ?_, hafter, hle, hunread, fun hzero => absurd hzero (Nat.ne_of_gt hpos)⟩
    rw [recvSome, h]

/-- The loop receives what is asked for, unless the stream ends before. -/
theorem recvUpTo_eq {fuel len : ℕ} (hfuel : len ≤ fuel) (r : Receiver α) :
    ∃ r', recvUpTo fuel len r = (r.unread.take len, r') ∧ After r (min len r.unread.length) r' := by
  induction fuel generalizing len r with
  | zero =>
    obtain rfl : len = 0 := Nat.eq_zero_of_le_zero hfuel
    refine ⟨r, by rw [recvUpTo, List.take_zero], ?_⟩
    rw [Nat.zero_min]
    exact After.refl r
  | succ fuel ih =>
    rw [recvUpTo]
    split
    case isTrue hzero =>
      subst hzero
      refine ⟨r, by rw [List.take_zero], ?_⟩
      rw [Nat.zero_min]
      exact After.refl r
    case isFalse hpos =>
      obtain ⟨n, r₁, hrecv, hafter, hle, hunread, hzero⟩ := recvSome_eq (Nat.pos_of_ne_zero hpos) r
      have hlength : (r.unread.take n).length = n := by
        rw [List.length_take, Nat.min_eq_left hunread]
      rw [hrecv]
      dsimp only
      split
      case isTrue hnil =>
        have hn : n = 0 := by rw [← hlength, List.isEmpty_iff.1 hnil, List.length_nil]
        have hend := hzero hn
        refine ⟨r₁, by rw [hend, List.take_nil], ?_⟩
        rw [hend, List.length_nil, Nat.min_zero, ← hn]
        exact hafter
      case isFalse hne =>
        have hrest : len - n ≤ fuel := by
          have : n ≠ 0 := fun h => hne (by rw [h, List.take_zero, List.isEmpty_nil])
          omega
        obtain ⟨r₂, hbody, hafter₂⟩ := ih hrest r₁
        rw [hlength, hbody]
        refine ⟨r₂, ?_, ?_⟩
        · dsimp only
          rw [hafter.unread, ← List.take_add, Nat.add_sub_cancel' hle]
        · have hall := hafter.trans hafter₂
          rw [hafter.unread, List.length_drop] at hall
          have hmin : n + min (len - n) (r.unread.length - n) = min len r.unread.length := by omega
          rwa [hmin] at hall

end Receiver
