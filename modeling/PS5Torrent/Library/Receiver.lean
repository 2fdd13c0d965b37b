import PS5Torrent.Library.Effect

/-!
# The receiving end of a stream

A stream socket hands out what was sent to it in order, but in fragments: what
has arrived at a call is up to the network, and a call may hand out less than
that. A `Receiver` holds what has arrived, what is still to come, and the
schedule of the arrivals, so that a theorem about every receiver is one about
every fragmentation.

* `peek` looks at what has arrived, `available` counts it, `recv` waits for it
  and takes a part of it.
* `Receiver.After`: a call took the first `n` elements of the stream, and
  nothing of what had arrived beyond them was lost.
-/

structure Receiver (α : Type) where
  /-- What has arrived and was not taken. -/
  buffered : List α
  /-- What the sender has yet to deliver. -/
  coming : List α
  /-- The sender closes the stream after that. -/
  ended : Bool
  /-- How much arrives at each call. -/
  arrivals : ℕ → ℕ
  /-- How much each call hands out at most. -/
  chunks : ℕ → ℕ
  calls : ℕ

abbrev ReceiveM (α : Type) := EStateM Unit (Receiver α)

namespace Receiver

variable {α : Type}

/-- The stream that is left. -/
def unread (r : Receiver α) : List α := r.buffered ++ r.coming

/-- The sender closed the stream, and all of it has arrived and was taken. -/
def atEnd (r : Receiver α) : Bool := r.ended && r.unread.isEmpty

/-- The next arrival, of at least so many elements. -/
def arrive (least : ℕ) (r : Receiver α) : Receiver α :=
  let n := max least (r.arrivals r.calls)
  { r with
    buffered := r.buffered ++ r.coming.take n
    coming := r.coming.drop n
    calls := r.calls + 1 }

/-- What has arrived by the end of a call. -/
def arrivedBy (r r' : Receiver α) : List α := r.unread.take (r.unread.length - r'.coming.length)

/-- Take the first elements of what has arrived. -/
def take (n : ℕ) (r : Receiver α) : Receiver α := { r with buffered := r.buffered.drop n }

/-- Look at the first elements: nothing is `none`, the end of the stream `[]`. -/
def peek (len : ℕ) : ReceiveM α (Option (List α)) := fun r =>
  let r := r.arrive 0
  .ok (if r.buffered.isEmpty && !r.atEnd then none else some (r.buffered.take len)) r

/-- How much has arrived. -/
def available : ReceiveM α ℕ := fun r =>
  let r := r.arrive 0
  .ok r.buffered.length r

/-- Wait for elements and take some of them: none at the end of the stream.
    Fails when the wait is in vain. -/
def recv (len : ℕ) : ReceiveM α (List α) := fun r =>
  let r := r.arrive (if r.buffered.isEmpty then 1 else 0)
  if r.buffered.isEmpty then
    if r.ended then .ok [] r else .error () r
  else
    let n := min len (max 1 (r.chunks r.calls))
    .ok (r.buffered.take n) (r.take n)

/-! ## What a call takes -/

/-- The call took the first `n` elements of the stream. -/
structure After (r : Receiver α) (n : ℕ) (r' : Receiver α) : Prop where
  unread : r'.unread = r.unread.drop n
  buffered : r.buffered.length ≤ r'.buffered.length + n
  ended : r'.ended = r.ended

namespace After

variable {r r' r'' : Receiver α} {m n : ℕ}

protected theorem refl (r : Receiver α) : After r 0 r := by
  refine ⟨?_, ?_, rfl⟩
  · rw [List.drop_zero]
  · omega

protected theorem trans (h : After r m r') (h' : After r' n r'') : After r (m + n) r'' := by
  refine ⟨?_, ?_, ?_⟩
  · rw [h'.unread, h.unread, List.drop_drop]
  · have := h.buffered
    have := h'.buffered
    omega
  · rw [h'.ended, h.ended]

theorem unread_zero (h : After r 0 r') : r'.unread = r.unread := h.unread

/-- What has arrived is the start of the stream. -/
theorem buffered_eq (h : After r 0 r') : r'.buffered = r.unread.take r'.buffered.length := by
  rw [← h.unread_zero, Receiver.unread, List.take_left]

/-- Once everything has arrived, nothing is to come. -/
theorem coming_eq_nil (h : After r n r') (hn : n ≤ r.buffered.length) (hr : r.coming = []) :
    r'.coming = [] := by
  have hlen := congrArg List.length h.unread
  have hbuffered := h.buffered
  simp only [Receiver.unread, hr, List.append_nil, List.length_append, List.length_drop] at hlen
  exact List.eq_nil_of_length_eq_zero (by omega)

/-- What has arrived at some point of a call has arrived by its end. -/
theorem le_arrivedBy (h : After r 0 r') (h' : After r' n r'') :
    r'.buffered.length ≤ r.unread.length - r''.coming.length := by
  have hlen := congrArg List.length h.unread
  have hlen' := congrArg List.length h'.unread
  have hbuffered := h'.buffered
  rw [List.drop_zero] at hlen
  rw [← hlen]
  simp only [Receiver.unread, List.length_append, List.length_drop] at hlen' ⊢
  omega

end After

@[simp]
theorem unread_arrive (least : ℕ) (r : Receiver α) : (r.arrive least).unread = r.unread := by
  rw [unread, arrive, List.append_assoc, List.take_append_drop, unread]

theorem after_arrive (least : ℕ) (r : Receiver α) : After r 0 (r.arrive least) := by
  refine ⟨?_, ?_, rfl⟩
  · rw [unread_arrive, List.drop_zero]
  · rw [arrive, List.length_append]
    omega

theorem after_take {n : ℕ} {r : Receiver α} (hn : n ≤ r.buffered.length) :
    After r n (r.take n) := by
  refine ⟨?_, ?_, rfl⟩
  · rw [unread, take, unread, List.drop_append_of_le_length hn]
  · rw [take, List.length_drop]
    omega

theorem take_length_buffered (r : Receiver α) : r.unread.take r.buffered.length = r.buffered := by
  rw [unread, List.take_left]

theorem take_buffered {n : ℕ} {r : Receiver α} (hn : n ≤ r.buffered.length) :
    r.buffered.take n = r.unread.take n := by
  rw [unread, List.take_append_of_le_length hn]

/-- A receive takes some of what has arrived by then. -/
theorem recv_of_arrived {len : ℕ} {r a : Receiver α} (hlen : 0 < len)
    (ha : r.arrive (if r.buffered.isEmpty then 1 else 0) = a) (hpos : 0 < a.buffered.length) :
    ∃ n r', 0 < n ∧ n ≤ len ∧ n ≤ r.unread.length ∧
      recv len r = .ok (r.unread.take n) r' ∧ After r n r' := by
  have harrive : After r 0 a := ha ▸ after_arrive _ r
  have hunread : a.unread = r.unread := ha ▸ unread_arrive _ r
  obtain ⟨n, hn⟩ : ∃ n, n = min (min len (max 1 (a.chunks a.calls))) a.buffered.length := ⟨_, rfl⟩
  have hle : n ≤ a.buffered.length := by omega
  have hdrop : a.take (min len (max 1 (a.chunks a.calls))) = a.take n := by
    rw [take, take, hn]
    congr 1
    rcases Nat.le_total (min len (max 1 (a.chunks a.calls))) a.buffered.length with h | h
    · rw [Nat.min_eq_left h]
    · rw [Nat.min_eq_right h, List.drop_eq_nil_of_le h, List.drop_length]
  refine ⟨n, a.take n, by omega, by omega, ?_, ?_, ?_⟩
  · rw [← hunread, unread, List.length_append]
    omega
  · have hrecv : recv len r = .ok (a.buffered.take (min len (max 1 (a.chunks a.calls))))
        (a.take (min len (max 1 (a.chunks a.calls)))) := by
      rw [recv, ha, if_neg (by simpa using List.ne_nil_of_length_pos hpos)]
    rw [hrecv, hdrop, ← hunread, ← take_buffered hle, hn, List.take_eq_take_min]
  · simpa using harrive.trans (after_take hle)

/-- A receive takes some elements, if some have arrived. -/
theorem recv_of_buffered {len : ℕ} {r : Receiver α} (hlen : 0 < len) (hr : r.buffered ≠ []) :
    ∃ n r', 0 < n ∧ n ≤ len ∧ n ≤ r.unread.length ∧
      recv len r = .ok (r.unread.take n) r' ∧ After r n r' := by
  refine recv_of_arrived hlen rfl ?_
  have hpos := List.length_pos_iff.2 hr
  rw [arrive, List.length_append]
  omega

/-- A receive waits for some elements, as long as some are to come. -/
theorem recv_of_unread {len : ℕ} {r : Receiver α} (hlen : 0 < len) (hr : r.unread ≠ []) :
    ∃ n r', 0 < n ∧ n ≤ len ∧ n ≤ r.unread.length ∧
      recv len r = .ok (r.unread.take n) r' ∧ After r n r' := by
  by_cases hbuffered : r.buffered = []
  · refine recv_of_arrived hlen rfl ?_
    have hpos := List.length_pos_iff.2 hr
    rw [unread, hbuffered, List.nil_append] at hpos
    rw [hbuffered, arrive, List.length_append, List.length_take, hbuffered, List.isEmpty_nil,
      if_pos rfl]
    omega
  · exact recv_of_buffered hlen hbuffered

/-- Once all was taken, a receive brings nothing. -/
theorem recv_of_unread_eq_nil {len : ℕ} {r : Receiver α} (hr : r.unread = []) :
    ∃ r', After r 0 r' ∧ (recv len r = .ok [] r' ∨ recv len r = .error () r') := by
  obtain ⟨a, ha⟩ : ∃ a, r.arrive (if r.buffered.isEmpty then 1 else 0) = a := ⟨_, rfl⟩
  have harrive : After r 0 a := ha ▸ after_arrive _ r
  have hnil : a.buffered = [] := by
    have hunread : a.unread = [] := harrive.unread_zero.trans hr
    exact (List.append_eq_nil_iff.1 hunread).1
  refine ⟨a, harrive, ?_⟩
  rw [recv, ha, if_pos (by rw [hnil]; rfl)]
  by_cases hended : a.ended
  · exact .inl (if_pos hended)
  · exact .inr (if_neg hended)

/-- A peek sees the start of the stream, or nothing. -/
theorem peek_eq (len : ℕ) (r : Receiver α) :
    ∃ r', After r 0 r' ∧
      (r'.buffered = [] ∧ r.atEnd = false ∧ peek len r = .ok none r' ∨
        r'.buffered ≠ [] ∧ peek len r = .ok (some (r'.buffered.take len)) r' ∨
        r.atEnd = true ∧ peek len r = .ok (some []) r') := by
  have harrive := after_arrive 0 r
  have hend : (r.arrive 0).atEnd = r.atEnd := by rw [atEnd, atEnd, unread_arrive, harrive.ended]
  refine ⟨r.arrive 0, harrive, ?_⟩
  have hpeek : peek len r = .ok (if (r.arrive 0).buffered.isEmpty && !(r.arrive 0).atEnd then none
      else some ((r.arrive 0).buffered.take len)) (r.arrive 0) := rfl
  rw [hpeek, hend]
  by_cases hbuf : (r.arrive 0).buffered = []
  · rw [hbuf]
    cases he : r.atEnd
    · left
      exact ⟨rfl, rfl, rfl⟩
    · right; right
      exact ⟨rfl, by simp⟩
  · right; left
    refine ⟨hbuf, ?_⟩
    rw [if_neg (by simp [hbuf])]

theorem available_eq (r : Receiver α) :
    ∃ r', available r = .ok r'.buffered.length r' ∧ After r 0 r' :=
  ⟨r.arrive 0, rfl, after_arrive 0 r⟩

end Receiver
