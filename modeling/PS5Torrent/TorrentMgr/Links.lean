import PS5Torrent.TorrentMgr.Holders

/-!
# Links

What is known of the connections of a torrent, apart from what they transfer
(`Links`): which peer records are open, which candidates are dialed, and the
counters. An address is dialed or connected at most once (`Links.Ok`), and
what is counted of the jobs agrees with the candidates.
-/

namespace PS5Torrent

open Slots

/-- The connections of a torrent: for each peer record, whether it is open, and
    for each candidate, whether it is dialed. -/
structure Links where
  activePeers : ℤ
  nextCandidate : ℕ
  peers : List (Bool × PeerAddr)
  candidates : List (PeerAddr × Bool)

namespace Links

/-- The number of open connections. -/
def opened (l : Links) : ℕ := l.peers.countP (·.1)

/-- The number of open connections to an address. -/
def connected (l : Links) (addr : PeerAddr) : ℕ := l.peers.countP fun p => p.1 && p.2 = addr

/-- The number of candidates with an address. -/
def known (l : Links) (addr : PeerAddr) : ℕ := l.candidates.countP (·.1 = addr)

/-- The number of candidates with an address that are dialed. -/
def dialed (l : Links) (addr : PeerAddr) : ℕ := l.candidates.countP fun c => c.2 && c.1 = addr

/-- The connections are counted right, where `dialing` counts the jobs for an
    address and `pending` all of them. -/
structure Ok (l : Links) (dialing : PeerAddr → ℕ) (pending : ℕ) : Prop where
  active : l.activePeers = l.opened
  once : ∀ addr, l.connected addr + l.dialed addr ≤ 1
  known_le : ∀ addr, l.known addr ≤ 1
  dialing_eq : ∀ addr, dialing addr = l.dialed addr
  pending_le : pending ≤ PEER_CONNECT_PARALLEL
  room : l.opened + pending ≤ MAX_PEERS_PER_TORRENT
  peers_le : l.peers.length ≤ MAX_PEERS_PER_TORRENT
  next_lt : l.nextCandidate < max 1 l.candidates.length

variable {l : Links} {dialing dialing' : PeerAddr → ℕ} {pending i : ℕ} {addr : PeerAddr}

/-! ## Counts -/

theorem dialed_le_known (l : Links) (addr : PeerAddr) : l.dialed addr ≤ l.known addr :=
  List.countP_mono_left fun _ _ h => (Bool.and_eq_true _ _ ▸ h : _ ∧ _).2

/-- The candidates once one of them is overwritten. -/
theorem dialed_set {c : PeerAddr × Bool} (hi : l.candidates[i]? = some c) (new : PeerAddr × Bool)
    (addr : PeerAddr) :
    { l with candidates := l.candidates.set i new }.dialed addr +
        (if c.2 ∧ c.1 = addr then 1 else 0) =
      l.dialed addr + if new.2 ∧ new.1 = addr then 1 else 0 := by
  have hset := countP_set_add (p := fun c : PeerAddr × Bool => c.2 && c.1 = addr) (y := new) hi
  simp only [Bool.and_eq_true, decide_eq_true_eq] at hset
  exact hset

theorem known_set {c : PeerAddr × Bool} (hi : l.candidates[i]? = some c) (new : PeerAddr × Bool)
    (addr : PeerAddr) :
    { l with candidates := l.candidates.set i new }.known addr + (if c.1 = addr then 1 else 0) =
      l.known addr + if new.1 = addr then 1 else 0 := by
  have hset := countP_set_add (p := fun c : PeerAddr × Bool => c.1 = addr) (y := new) hi
  simp only [decide_eq_true_eq] at hset
  exact hset

/-- The peers once one of them is overwritten. -/
theorem connected_set {p : Bool × PeerAddr} (hi : l.peers[i]? = some p) (new : Bool × PeerAddr)
    (addr : PeerAddr) :
    { l with peers := l.peers.set i new }.connected addr + (if p.1 ∧ p.2 = addr then 1 else 0) =
      l.connected addr + if new.1 ∧ new.2 = addr then 1 else 0 := by
  have hset := countP_set_add (p := fun p : Bool × PeerAddr => p.1 && p.2 = addr) (y := new) hi
  simp only [Bool.and_eq_true, decide_eq_true_eq] at hset
  exact hset

theorem opened_set {p : Bool × PeerAddr} (hi : l.peers[i]? = some p) (new : Bool × PeerAddr) :
    { l with peers := l.peers.set i new }.opened + (if p.1 then 1 else 0) =
      l.opened + if new.1 then 1 else 0 :=
  countP_set_add (p := fun p : Bool × PeerAddr => p.1) hi

namespace Ok

/-! ## Changes -/

/-- Nothing is connected or dialed. -/
theorem empty (hactive : l.activePeers = 0) (hpeers : l.peers = []) (hnext : l.nextCandidate = 0)
    (hcandidates : l.candidates = []) (hdialing : ∀ addr, dialing addr = 0) :
    l.Ok dialing 0 where
  active := by
    rw [opened, hpeers, hactive]
    rfl
  once addr := by
    rw [connected, dialed, hpeers, hcandidates]
    exact Nat.zero_le _
  known_le addr := by
    rw [Links.known, hcandidates]
    exact Nat.zero_le _
  dialing_eq addr := by
    rw [dialed, hcandidates]
    exact hdialing addr
  pending_le := Nat.zero_le _
  room := by
    rw [opened, hpeers]
    exact Nat.zero_le _
  peers_le := by
    rw [hpeers]
    exact Nat.zero_le _
  next_lt := by
    rw [hnext]
    exact lt_max_of_lt_left Nat.zero_lt_one

/-- The loop over the candidates goes on. -/
theorem take (h : l.Ok dialing pending) (hne : l.candidates ≠ []) :
    { l with nextCandidate := (l.nextCandidate + 1) % l.candidates.length }.Ok dialing pending :=
  { h with next_lt := lt_max_of_lt_right (Nat.mod_lt _ (List.length_pos_iff.2 hne)) }

/-- A candidate that is neither dialed nor connected is dialed. -/
theorem dial (h : l.Ok dialing pending) (hi : l.candidates[i]? = some (addr, false))
    (hclosed : l.connected addr = 0) (hpending : pending < PEER_CONNECT_PARALLEL)
    (hroom : l.activePeers + pending < MAX_PEERS_PER_TORRENT)
    (hdialing : ∀ a, dialing' a = dialing a + if addr = a then 1 else 0) :
    { l with candidates := l.candidates.set i (addr, true) }.Ok dialing' (pending + 1) := by
  have hdialed (a : PeerAddr) := dialed_set hi (addr, true) a
  have hknown (a : PeerAddr) := known_set hi (addr, true) a
  simp only [Bool.false_eq_true, false_and, true_and, if_false, add_zero] at hdialed
  have hactive := h.active
  have hle (a : PeerAddr) : { l with candidates := l.candidates.set i (addr, true) }.known a ≤ 1 :=
    (Nat.add_right_cancel (hknown a)).trans_le (h.known_le a)
  refine { h with
    once := fun a => ?_
    known_le := hle
    dialing_eq := fun a => ?_
    pending_le := hpending
    room := ?_
    next_lt := ?_ }
  · by_cases ha : addr = a
    · subst ha
      change l.connected addr + _ ≤ 1
      rw [hclosed, Nat.zero_add]
      exact (dialed_le_known _ _).trans (hle addr)
    · have hsame := hdialed a
      rw [if_neg ha, add_zero] at hsame
      rw [hsame]
      exact h.once a
  · rw [hdialing, h.dialing_eq, hdialed]
  · change l.opened + (pending + 1) ≤ MAX_PEERS_PER_TORRENT
    omega
  · rw [List.length_set]
    exact h.next_lt

/-- A connection ends. -/
theorem hangUp (h : l.Ok dialing pending) (hi : l.peers[i]? = some (true, addr)) :
    { l with
      activePeers := l.activePeers - 1
      peers := l.peers.set i (false, addr) }.Ok dialing pending := by
  have hconnected (a : PeerAddr) := connected_set hi (false, addr) a
  have hopened := opened_set hi (false, addr)
  simp only [Bool.false_eq_true, false_and, true_and, if_false, if_true, add_zero] at hconnected hopened
  have hactive := h.active
  have hroom := h.room
  refine { h with
    active := ?_
    once := fun a => ?_
    room := ?_
    peers_le := ?_ }
  · change l.activePeers - 1 = ({ l with peers := l.peers.set i (false, addr) }.opened : ℤ)
    omega
  · have hle := h.once a
    have hset := hconnected a
    change { l with peers := l.peers.set i (false, addr) }.connected a + l.dialed a ≤ 1
    omega
  · change { l with peers := l.peers.set i (false, addr) }.opened + pending ≤ _
    omega
  · rw [List.length_set]
    exact h.peers_le

/-- A candidate is no longer dialed. -/
theorem collect (h : l.Ok dialing (pending + 1)) (hi : l.candidates[i]? = some (addr, true))
    (hdialing : ∀ a, dialing a = dialing' a + if addr = a then 1 else 0) :
    { l with candidates := l.candidates.set i (addr, false) }.Ok dialing' pending := by
  have hdialed (a : PeerAddr) := dialed_set hi (addr, false) a
  have hknown (a : PeerAddr) := known_set hi (addr, false) a
  simp only [Bool.false_eq_true, false_and, true_and, if_false, add_zero] at hdialed
  refine { h with
    once := fun a => ?_
    known_le := fun a => (Nat.add_right_cancel (hknown a)).trans_le (h.known_le a)
    dialing_eq := fun a => ?_
    pending_le := Nat.le_of_succ_le h.pending_le
    room := Nat.le_of_succ_le h.room
    next_lt := ?_ }
  · have hle := h.once a
    have hset := hdialed a
    change l.connected a + _ ≤ 1
    omega
  · have hset := hdialed a
    have heq := h.dialing_eq a
    rw [hdialing] at heq
    omega
  · rw [List.length_set]
    exact h.next_lt

/-- A connection takes the place of one that has ended. -/
theorem reopen {old : PeerAddr} (h : l.Ok dialing pending) (hi : l.peers[i]? = some (false, old))
    (hclosed : l.connected addr = 0) (hidle : l.dialed addr = 0)
    (hroom : l.opened + pending < MAX_PEERS_PER_TORRENT) :
    { l with
      activePeers := l.activePeers + 1
      peers := l.peers.set i (true, addr) }.Ok dialing pending := by
  have hconnected (a : PeerAddr) := connected_set hi (true, addr) a
  have hopened := opened_set hi (true, addr)
  simp only [Bool.false_eq_true, false_and, true_and, if_false, if_true, add_zero] at hconnected hopened
  have hactive := h.active
  refine { h with
    active := ?_
    once := fun a => ?_
    room := ?_
    peers_le := ?_ }
  · change l.activePeers + 1 = ({ l with peers := l.peers.set i (true, addr) }.opened : ℤ)
    omega
  · have hle := h.once a
    have hset := hconnected a
    change { l with peers := l.peers.set i (true, addr) }.connected a + l.dialed a ≤ 1
    by_cases ha : addr = a
    · subst ha
      rw [hset, hclosed, hidle, if_pos rfl]
    · rw [if_neg ha] at hset
      omega
  · change { l with peers := l.peers.set i (true, addr) }.opened + pending ≤ _
    omega
  · rw [List.length_set]
    exact h.peers_le

/-- A connection that is added to those there are. -/
theorem append (h : l.Ok dialing pending) (hclosed : l.connected addr = 0)
    (hidle : l.dialed addr = 0) (hroom : l.opened + pending < MAX_PEERS_PER_TORRENT)
    (hlength : l.peers.length < MAX_PEERS_PER_TORRENT) :
    { l with
      activePeers := l.activePeers + 1
      peers := l.peers ++ [(true, addr)] }.Ok dialing pending := by
  have hopened : { l with peers := l.peers ++ [(true, addr)] }.opened = l.opened + 1 := by
    rw [opened, List.countP_append]
    rfl
  have hconnected (a : PeerAddr) : { l with peers := l.peers ++ [(true, addr)] }.connected a =
      l.connected a + if addr = a then 1 else 0 := by
    rw [connected, List.countP_append, List.countP_singleton, Bool.true_and]
    simp only [decide_eq_true_eq]
    rfl
  have hactive := h.active
  refine { h with
    active := ?_
    once := fun a => ?_
    room := ?_
    peers_le := ?_ }
  · change l.activePeers + 1 = ({ l with peers := l.peers ++ [(true, addr)] }.opened : ℤ)
    omega
  · have hle := h.once a
    change { l with peers := l.peers ++ [(true, addr)] }.connected a + l.dialed a ≤ 1
    rw [hconnected]
    by_cases ha : addr = a
    · subst ha
      rw [hclosed, hidle, if_pos rfl]
    · rw [if_neg ha]
      exact hle
  · change { l with peers := l.peers ++ [(true, addr)] }.opened + pending ≤ _
    omega
  · rw [List.length_append]
    exact hlength

/-- There is a new candidate. -/
theorem add (h : l.Ok dialing pending) (hnew : l.known addr = 0) :
    { l with candidates := l.candidates ++ [(addr, false)] }.Ok dialing pending := by
  have hdialed (a : PeerAddr) :
      { l with candidates := l.candidates ++ [(addr, false)] }.dialed a = l.dialed a := by
    rw [dialed, List.countP_append]
    rfl
  have hknown (a : PeerAddr) : { l with candidates := l.candidates ++ [(addr, false)] }.known a =
      l.known a + if addr = a then 1 else 0 := by
    rw [Links.known, List.countP_append, List.countP_singleton]
    simp only [decide_eq_true_eq]
    rfl
  refine { h with
    once := fun a => ?_
    known_le := fun a => ?_
    dialing_eq := fun a => ?_
    next_lt := ?_ }
  · rw [hdialed]
    exact h.once a
  · rw [hknown]
    by_cases ha : addr = a
    · subst ha
      rw [hnew, if_pos rfl]
    · rw [if_neg ha]
      exact h.known_le a
  · rw [hdialed]
    exact h.dialing_eq a
  · have hlt := h.next_lt
    rw [List.length_append, List.length_singleton]
    dsimp only
    omega

/-- A candidate that is not dialed is replaced. -/
theorem replace {old : PeerAddr} (h : l.Ok dialing pending)
    (hi : l.candidates[i]? = some (old, false)) (hnew : l.known addr = 0) :
    { l with candidates := l.candidates.set i (addr, false) }.Ok dialing pending := by
  have hdialed (a : PeerAddr) := dialed_set hi (addr, false) a
  have hknown (a : PeerAddr) := known_set hi (addr, false) a
  simp only [Bool.false_eq_true, false_and, if_false, add_zero] at hdialed
  refine { h with
    once := fun a => ?_
    known_le := fun a => ?_
    dialing_eq := fun a => ?_
    next_lt := ?_ }
  · rw [hdialed]
    exact h.once a
  · have hset := hknown a
    have hle := h.known_le a
    by_cases ha : addr = a
    · subst ha
      rw [if_pos rfl, hnew] at hset
      omega
    · rw [if_neg ha] at hset
      omega
  · rw [hdialed]
    exact h.dialing_eq a
  · rw [List.length_set]
    exact h.next_lt

end Ok

end Links

end PS5Torrent
