import Mathlib.Data.List.Basic
import Mathlib.Order.Lattice
import Mathlib.Data.Nat.Basic
import Mathlib.Tactic.Linarith

/-!
# Datagrams and deadlines

A datagram socket hands out what arrives whole and in order. A wait for the
next datagram ends when it has arrived or at a timeout, and a call may be
interrupted or fail. The arrivals, the time that passes between the readings
of the clock and the faults of the calls are given, so that a theorem about
every socket is one about every network and every schedule.

* `clock`, `send`, `select` and `recv` are the calls. What was sent and taken
  is recorded with its time.
* `poll`: wait for a datagram up to a deadline and take it.
* `poll_spec`: what a poll takes has arrived by the deadline.
-/

namespace Datagrams

/-- Why a call did not do its work. -/
inductive Fault
  | interrupted
  | failed
  deriving DecidableEq

/-- What passed through a socket, and when, and the readings of the clock. -/
inductive Incident (α : Type)
  | read (time : ℕ)
  | sent (time : ℕ) (datagram : List α)
  | taken (time : ℕ) (datagram : List α)

/-- The datagram that is taken in an event. -/
def Incident.datagram? {α : Type} : Incident α → Option (List α)
  | .taken _ datagram => some datagram
  | _ => none

/-- The datagrams taken in a sequence of events. -/
def takenOf {α : Type} (events : List (Incident α)) : List (List α) :=
  events.filterMap Incident.datagram?

/-- Nothing is sent, and what is taken is taken by the deadline. -/
def Incident.By {α : Type} (deadline : ℕ) : Incident α → Prop
  | .read _ => True
  | .sent .. => False
  | .taken time _ => time ≤ deadline

structure Socket (α : Type) where
  /-- What arrives, in order and with the time of its arrival. -/
  coming : List (ℕ × List α)
  now : ℕ
  /-- The time that passes before each reading of the clock. -/
  delays : ℕ → ℕ
  readings : ℕ
  /-- The faults of the calls to come; at the end of the list there are none. -/
  faults : List (Option Fault)
  events : List (Incident α)

variable {α : Type}

namespace Socket

/-- The datagrams to come, as calls hand them out. -/
def unread (capacity : ℕ) (s : Socket α) : List (List α) :=
  s.coming.map fun arrival => arrival.2.take capacity

/-- A bound on the calls that can hand out or report something. -/
def pending (s : Socket α) : ℕ := s.coming.length + s.faults.length

/-- Read the clock. -/
def clock (s : Socket α) : Socket α :=
  { s with
    now := s.now + s.delays s.readings
    readings := s.readings + 1
    events := s.events ++ [.read (s.now + s.delays s.readings)] }

/-- The fault of the next call. -/
def fault (s : Socket α) : Option Fault := s.faults.head?.join

/-- The socket after the fault of a call was reported. -/
def next (s : Socket α) : Socket α := { s with faults := s.faults.tail }

/-- Send a datagram, unless there is a fault. -/
def send (datagram : List α) (s : Socket α) : Option Fault × Socket α :=
  match s.fault with
  | some fault => (some fault, s.next)
  | none => (none, { s.next with events := s.events ++ [.sent s.now datagram] })

end Socket

/-- What a wait ends with. -/
inductive Wait
  | fault (fault : Fault)
  | timeout
  | ready

/-- Wait for a datagram, for the given time. -/
def select (timeout : ℕ) (s : Socket α) : Wait × Socket α :=
  match s.fault with
  | some fault => (.fault fault, s.next)
  | none =>
    match s.coming with
    | [] => (.timeout, { s.next with now := s.now + timeout })
    | (arrival, _) :: _ =>
      if arrival ≤ s.now + timeout then (.ready, { s.next with now := max s.now arrival })
      else (.timeout, { s.next with now := s.now + timeout })

/-- Take a datagram. -/
def recv (capacity : ℕ) (s : Socket α) : Except Fault (List α) × Socket α :=
  match s.fault with
  | some fault => (.error fault, s.next)
  | none =>
    match s.coming with
    | [] => (.error .failed, s.next)
    | (_, datagram) :: coming =>
      (.ok (datagram.take capacity),
        { s.next with
          coming := coming
          events := s.events ++ [.taken s.now (datagram.take capacity)] })

/-- What a poll ends with. -/
inductive Poll (α : Type)
  | timeout
  | interrupted
  | failed
  | datagram (datagram : List α)

/-- Wait for a datagram up to a deadline, and take it. -/
def poll (capacity deadline : ℕ) (s : Socket α) : Poll α × Socket α :=
  let s := s.clock
  if deadline ≤ s.now then (.timeout, s)
  else
    match select (deadline - s.now) s with
    | (.fault .interrupted, s) => (.interrupted, s)
    | (.fault .failed, s) => (.failed, s)
    | (.timeout, s) => (.timeout, s)
    | (.ready, s) =>
      match recv capacity s with
      | (.error .interrupted, s) => (.interrupted, s)
      | (.error .failed, s) => (.failed, s)
      | (.ok datagram, s) => (.datagram datagram, s)

/-! ## What a poll does -/

/-- Time goes on, and the faults of the calls are used up. -/
structure Socket.Passed (s s' : Socket α) : Prop where
  now : s.now ≤ s'.now
  faults : s'.faults <:+ s.faults

theorem Socket.Passed.refl (s : Socket α) : s.Passed s := ⟨le_rfl, List.suffix_rfl⟩

theorem Socket.Passed.trans {s s' s'' : Socket α} (h : s.Passed s') (h' : s'.Passed s'') :
    s.Passed s'' :=
  ⟨h.now.trans h'.now, h'.faults.trans h.faults⟩

/-- A poll takes the next datagram, which has arrived by the deadline, or none. It times out only
    after the deadline, and fails only for a fault. -/
inductive Polled (capacity deadline : ℕ) (s : Socket α) : Poll α → Socket α → Prop
  | datagram {datagram : List α} {s' : Socket α} {start time : ℕ} (htime : time ≤ deadline)
      (hevents : s'.events = s.events ++ [.read start, .taken time datagram])
      (hunread : s.unread capacity = datagram :: s'.unread capacity)
      (hpassed : s.Passed s') (hpending : s'.pending < s.pending) :
      Polled capacity deadline s (.datagram datagram) s'
  | nothing {outcome : Poll α} {s' : Socket α} {start : ℕ}
      (houtcome : ∀ datagram, outcome ≠ .datagram datagram)
      (hevents : s'.events = s.events ++ [.read start]) (hcoming : s'.coming = s.coming)
      (hpassed : s.Passed s') (htimeout : outcome = .timeout → deadline ≤ s'.now)
      (hfailed : outcome = .failed → some .failed ∈ s.faults)
      (hpending : outcome = .interrupted → s'.pending < s.pending) :
      Polled capacity deadline s outcome s'

variable {capacity deadline timeout : ℕ} {s : Socket α}

/-- A reported fault is not reported again. -/
theorem pending_next {fault : Fault} (h : s.fault = some fault) : s.next.pending < s.pending := by
  have hne : s.faults ≠ [] := by
    intro hnil
    rw [Socket.fault, hnil] at h
    exact absurd h (by simp)
  have hpos := List.length_pos_of_ne_nil hne
  simp only [Socket.pending, Socket.next, List.length_tail]
  omega

theorem pending_next_le (s : Socket α) : s.next.pending ≤ s.pending := by
  simp only [Socket.pending, Socket.next, List.length_tail]
  omega

theorem mem_faults {fault : Fault} (h : s.fault = some fault) : some fault ∈ s.faults := by
  rw [Socket.fault, Option.join_eq_some_iff] at h
  exact List.mem_of_mem_head? h

theorem passed_clock (s : Socket α) : s.Passed s.clock := ⟨Nat.le_add_right _ _, List.suffix_rfl⟩

theorem passed_next (s : Socket α) : s.Passed s.next := ⟨le_rfl, List.tail_suffix _⟩

/-- A wait that ends before its timeout ends with a datagram that has arrived. -/
theorem select_ready {s' : Socket α} (h : select timeout s = (.ready, s')) :
    s'.now ≤ s.now + timeout ∧ s'.events = s.events ∧ s'.coming = s.coming ∧
      s.coming ≠ [] ∧ s'.pending ≤ s.pending := by
  rw [select] at h
  split at h
  · exact absurd (Prod.mk.inj h).1 (by simp)
  split at h
  · exact absurd (Prod.mk.inj h).1 (by simp)
  rename_i hcoming
  split at h
  · rename_i harrival
    obtain ⟨-, rfl⟩ := Prod.mk.inj h
    exact ⟨max_le (Nat.le_add_right ..) harrival, rfl, rfl, by simp [hcoming], pending_next_le s⟩
  · exact absurd (Prod.mk.inj h).1 (by simp)

/-- A wait takes nothing. -/
theorem select_frame (timeout : ℕ) (s : Socket α) :
    (select timeout s).2.events = s.events ∧ (select timeout s).2.coming = s.coming ∧
      s.Passed (select timeout s).2 := by
  rw [select]
  split
  · exact ⟨rfl, rfl, passed_next s⟩
  split
  · exact ⟨rfl, rfl, Nat.le_add_right _ _, List.tail_suffix _⟩
  split
  · exact ⟨rfl, rfl, le_max_left _ _, List.tail_suffix _⟩
  · exact ⟨rfl, rfl, Nat.le_add_right _ _, List.tail_suffix _⟩

theorem select_timeout {s' : Socket α} (h : select timeout s = (.timeout, s')) :
    s'.now = s.now + timeout := by
  rw [select] at h
  split at h
  · exact absurd (Prod.mk.inj h).1 (by simp)
  split at h
  · rw [← (Prod.mk.inj h).2]
  split at h
  · exact absurd (Prod.mk.inj h).1 (by simp)
  · rw [← (Prod.mk.inj h).2]

theorem select_fault {fault : Fault} {s' : Socket α}
    (h : select timeout s = (.fault fault, s')) :
    some fault ∈ s.faults ∧ s'.pending < s.pending := by
  rw [select] at h
  split at h
  · rename_i hfault
    obtain ⟨heq, rfl⟩ := Prod.mk.inj h
    obtain rfl := Wait.fault.inj heq
    exact ⟨mem_faults hfault, pending_next hfault⟩
  split at h
  · exact absurd (Prod.mk.inj h).1 (by simp)
  split at h
  · exact absurd (Prod.mk.inj h).1 (by simp)
  · exact absurd (Prod.mk.inj h).1 (by simp)

theorem passed_recv (capacity : ℕ) (s : Socket α) : s.Passed (recv capacity s).2 := by
  rw [recv]
  split
  · exact passed_next s
  split
  · exact passed_next s
  · exact { passed_next s with }

/-- A datagram that is handed out is the next one. -/
theorem recv_ok {datagram : List α} {s' : Socket α}
    (h : recv capacity s = (.ok datagram, s')) :
    s'.events = s.events ++ [.taken s.now datagram] ∧
      s.unread capacity = datagram :: s'.unread capacity ∧ s'.pending < s.pending := by
  rw [recv] at h
  split at h
  · exact absurd (Prod.mk.inj h).1 (by simp)
  split at h
  · exact absurd (Prod.mk.inj h).1 (by simp)
  · rename_i hcoming
    obtain ⟨hdatagram, rfl⟩ := Prod.mk.inj h
    obtain rfl := Except.ok.inj hdatagram
    have hpending := pending_next_le s
    refine ⟨rfl, ?_, ?_⟩
    · simp only [Socket.unread, hcoming, List.map_cons]
    · simp only [Socket.pending, Socket.next, hcoming, List.length_cons] at hpending ⊢
      omega

/-- Where there is a datagram, only a fault keeps it. -/
theorem recv_error {fault : Fault} {s' : Socket α} (hcoming : s.coming ≠ [])
    (h : recv capacity s = (.error fault, s')) :
    s'.events = s.events ∧ s'.coming = s.coming ∧ some fault ∈ s.faults ∧
      s'.pending < s.pending := by
  rw [recv] at h
  split at h
  · rename_i hfault
    obtain ⟨heq, rfl⟩ := Prod.mk.inj h
    obtain rfl := Except.error.inj heq
    exact ⟨rfl, rfl, mem_faults hfault, pending_next hfault⟩
  split at h
  · rename_i hnil
    exact absurd hnil hcoming
  · exact absurd (Prod.mk.inj h).1 (by simp)

theorem poll_spec (capacity deadline : ℕ) (s : Socket α) :
    Polled capacity deadline s (poll capacity deadline s).1 (poll capacity deadline s).2 := by
  rw [poll]
  split
  case isTrue hle =>
    exact .nothing (fun _ => by simp) rfl rfl (passed_clock s) (fun _ => hle)
      (fun h => absurd h (by simp)) fun h => absurd h (by simp)
  rename_i hdeadline
  obtain ⟨hevents, hcoming, hpassed⟩ := select_frame (deadline - s.clock.now) s.clock
  replace hpassed := (passed_clock s).trans hpassed
  split
  · rename_i s₁ hselect
    rw [hselect] at hevents hcoming hpassed
    exact .nothing (fun _ => by simp) hevents hcoming hpassed (fun h => absurd h (by simp))
      (fun h => absurd h (by simp)) fun _ => (select_fault hselect).2
  · rename_i s₁ hselect
    rw [hselect] at hevents hcoming hpassed
    exact .nothing (fun _ => by simp) hevents hcoming hpassed (fun h => absurd h (by simp))
      (fun _ => (select_fault hselect).1) fun h => absurd h (by simp)
  · rename_i s₁ hselect
    rw [hselect] at hevents hcoming hpassed
    have hnow := select_timeout hselect
    have hle : deadline ≤ s₁.now := by omega
    exact .nothing (fun _ => by simp) hevents hcoming hpassed (fun _ => hle)
      (fun h => absurd h (by simp)) fun h => absurd h (by simp)
  · rename_i s₁ hselect
    rw [hselect] at hpassed
    obtain ⟨hnow, hevents, hcoming, hne, hpending⟩ := select_ready hselect
    have hle : s₁.now ≤ deadline := by omega
    have hrecvPassed := hpassed.trans (passed_recv capacity s₁)
    rw [← hcoming] at hne
    split
    · rename_i s₂ hrecv
      rw [hrecv] at hrecvPassed
      obtain ⟨hevents', hcoming', -, hless⟩ := recv_error hne hrecv
      exact .nothing (fun _ => by simp) (hevents'.trans hevents) (hcoming'.trans hcoming)
        hrecvPassed (fun h => absurd h (by simp)) (fun h => absurd h (by simp))
        fun _ => hless.trans_le hpending
    · rename_i s₂ hrecv
      rw [hrecv] at hrecvPassed
      obtain ⟨hevents', hcoming', hmem, -⟩ := recv_error hne hrecv
      exact .nothing (fun _ => by simp) (hevents'.trans hevents) (hcoming'.trans hcoming)
        hrecvPassed (fun h => absurd h (by simp)) (fun _ => hpassed.faults.subset hmem)
        fun h => absurd h (by simp)
    · rename_i datagram s₂ hrecv
      rw [hrecv] at hrecvPassed
      obtain ⟨hevents', hunread, hless⟩ := recv_ok hrecv
      have htaken : s₂.events = s.events ++ [.read s.clock.now, .taken s₁.now datagram] := by
        rw [hevents', hevents, Socket.clock, List.append_assoc]
        rfl
      refine .datagram hle htaken ?_ hrecvPassed (hless.trans_le hpending)
      rw [← hunread, Socket.unread, Socket.unread, hcoming]
      rfl

end Datagrams
