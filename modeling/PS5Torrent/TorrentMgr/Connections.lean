import PS5Torrent.TorrentMgr.Download
import PS5Torrent.TorrentMgr.Links

/-!
# Connections in every reachable state

The connections of a downloading torrent are counted right, no address is
dialed twice or while it is connected, and a connection always finds a record
(`connections_of_reachable`).
-/

namespace PS5Torrent

open Sha1 Slots Relation Work TorrentMgr

/-- The connections of a torrent. -/
def ManagedTorrent.links (mt : ManagedTorrent) : Links where
  activePeers := mt.activePeers
  nextCandidate := mt.nextCandidate
  peers := mt.peers.map fun p => (p.sock.isSome, p.addr)
  candidates := mt.peerCandidates.map fun c => (c.addr, c.connecting)

/-- The number of jobs of a generation that dial an address. -/
def dialing (generation : ℕ) (jobs : List (Option PeerConnectJob)) (addr : PeerAddr) : ℕ :=
  jobs.countP (·.any fun job => job.generation = generation && job.addr = addr)

/-- The number of jobs of a generation that dial. -/
def dials (generation : ℕ) (jobs : List (Option PeerConnectJob)) : ℕ :=
  jobs.countP (·.any (·.generation = generation))

/-- The connections of a torrent agree with the jobs. -/
def ManagedTorrent.Linked (jobs : List (Option PeerConnectJob)) (mt : ManagedTorrent) : Prop :=
  mt.links.Ok (dialing mt.generation jobs) (dials mt.generation jobs)

variable {mt : ManagedTorrent} {w w' : Work} {i : ℕ} {p p' : TorrentPeer} {c : PeerCandidate}
  {addr : PeerAddr} {f : PeerCandidate → PeerCandidate}

/-! ## Records -/

theorem links_setPeer (i : ℕ) (p' : TorrentPeer) (w : Work) :
    (w.setPeer i p').mt.links =
      { w.mt.links with peers := w.mt.links.peers.set i (p'.sock.isSome, p'.addr) } := by
  rw [ManagedTorrent.links, ManagedTorrent.links]
  simp only [setPeer, List.map_set]

theorem getElem?_links_peers (hp : w.mt.peers[i]? = some p) :
    w.mt.links.peers[i]? = some (p.sock.isSome, p.addr) := by
  rw [ManagedTorrent.links, List.getElem?_map, hp, Option.map_some]

/-- A record of the same connection. -/
theorem links_setPeer_of_same (hp : w.mt.peers[i]? = some p) (hsock : p'.sock = p.sock)
    (haddr : p'.addr = p.addr) : (w.setPeer i p').mt.links = w.mt.links := by
  rw [links_setPeer, hsock, haddr, set_getElem?_self (getElem?_links_peers hp)]

/-- A change of a candidate that leaves its address and its state as they are. -/
theorem links_modifyCandidate (hf : ∀ c, (f c).addr = c.addr ∧ (f c).connecting = c.connecting)
    (i : ℕ) (mt : ManagedTorrent) : (mt.modifyCandidate i f).links = mt.links := by
  have hmap : (mt.peerCandidates.modify i f).map (fun c => (c.addr, c.connecting)) =
      mt.peerCandidates.map fun c => (c.addr, c.connecting) := by
    refine List.ext_getElem? fun j => ?_
    rw [List.getElem?_map, List.getElem?_map, List.getElem?_modify]
    cases mt.peerCandidates[j]? with
    | none => rfl
    | some c =>
      dsimp only [Option.map_eq_map, Option.map_some]
      split
      · rw [(hf c).1, (hf c).2]
      · rfl
  rw [ManagedTorrent.links, ManagedTorrent.links, ManagedTorrent.modifyCandidate]
  simp only [hmap]

/-- A candidate begins or ends to be dialed. -/
theorem links_modifyCandidate_of_get (hc : mt.peerCandidates[i]? = some c) :
    (mt.modifyCandidate i f).links =
      { mt.links with candidates := mt.links.candidates.set i ((f c).addr, (f c).connecting) } := by
  rw [ManagedTorrent.links, ManagedTorrent.links, ManagedTorrent.modifyCandidate]
  simp only [List.modify_eq_set_getElem?, hc, Option.map_eq_map, Option.map_some, Option.getD_some,
    List.map_set]

theorem getElem?_links_candidates (hc : mt.peerCandidates[i]? = some c) :
    mt.links.candidates[i]? = some (c.addr, c.connecting) := by
  rw [ManagedTorrent.links, List.getElem?_map, hc, Option.map_some]

theorem links_recordPeerFailure (addr : PeerAddr) (w : Work) :
    (recordPeerFailure addr w).mt.links = w.mt.links := by
  rw [recordPeerFailure]
  split
  case h_1 => rfl
  case h_2 i _ =>
    exact links_modifyCandidate (f := (·.failed w.outcome.time)) (fun _ => ⟨rfl, rfl⟩) i w.mt

theorem links_clearFailures (addr : PeerAddr) (mt : ManagedTorrent) :
    (clearFailures addr mt).links = mt.links := by
  rw [clearFailures, ManagedTorrent.updateCandidate]
  split
  case h_1 => rfl
  case h_2 i _ =>
    exact links_modifyCandidate (f := fun c => { c with failures := 0, retryAfter := 0 })
      (fun _ => ⟨rfl, rfl⟩) i mt

/-- No peer with the address is connected. -/
theorem peerIsConnected_eq_false_iff :
    peerIsConnected mt addr = false ↔ mt.links.connected addr = 0 := by
  rw [Links.connected, ManagedTorrent.links, List.countP_map, List.countP_eq_zero, peerIsConnected,
    List.any_eq_false]
  rfl

/-- No candidate has the address. -/
theorem findCandidate_eq_none_iff : findCandidate mt addr = none ↔ mt.links.known addr = 0 := by
  rw [Links.known, ManagedTorrent.links, List.countP_map, List.countP_eq_zero, findCandidate,
    List.findIdx?_eq_none_iff]
  exact forall₂_congr fun c _ => Bool.eq_false_iff

/-! ## Disconnection -/

/-- A peer that is disconnected, if it is connected. -/
theorem links_disconnectPeer (hp : w.mt.peers[i]? = some p) :
    (disconnectPeer i w).mt.links = if p.sock.isNone then w.mt.links else
      { w.mt.links with
        activePeers := w.mt.links.activePeers - 1
        peers := w.mt.links.peers.set i (false, p.addr) } := by
  have hset (w : Work) : ({ w.setPeer i p.idle with
      assemblyBytes := p.releases w.assemblyBytes
      releases := p.logRelease w.assemblyBytes w.releases
      mt.pieceMgr := p.leaves w.mt.pieceMgr } : Work).mt.links =
      { w.mt.links with peers := w.mt.links.peers.set i (false, p.addr) } :=
    links_setPeer i p.idle w
  rw [disconnectPeer_eq hp, hset, hangUp]
  split
  case isTrue hsock =>
    have hget : w.mt.links.peers[i]? = some (false, p.addr) := by
      rw [getElem?_links_peers hp, Option.isNone_iff_eq_none.1 hsock]
      rfl
    rw [set_getElem?_self hget]
  case isFalse =>
    dsimp only
    split
    case isTrue =>
      rw [← links_recordPeerFailure p.addr w]
      rfl
    case isFalse => rfl

/-! ## Jobs -/

variable {generation slot : ℕ} {jobs : List (Option PeerConnectJob)} {job : PeerConnectJob}

theorem dialing_set (hslot : jobs[slot]? = some none) (hjob : job.generation = generation)
    (addr : PeerAddr) : dialing generation (jobs.set slot (some job)) addr =
      dialing generation jobs addr + if job.addr = addr then 1 else 0 := by
  have hset := countP_set_add (p := fun slot : Option PeerConnectJob => slot.any fun job =>
    job.generation = generation && job.addr = addr) (y := some job) hslot
  rw [dialing, dialing]
  simpa [hjob] using hset

/-- A job that is collected counts no longer. -/
theorem dialing_erase (hslot : jobs[slot]? = some (some job)) (hjob : job.generation = generation)
    (addr : PeerAddr) : dialing generation jobs addr =
      dialing generation (jobs.set slot none) addr + if job.addr = addr then 1 else 0 := by
  have hset := countP_set_add (p := fun slot : Option PeerConnectJob => slot.any fun job =>
    job.generation = generation && job.addr = addr) (y := none) hslot
  rw [dialing, dialing]
  simpa [hjob] using hset.symm

theorem dials_erase (hslot : jobs[slot]? = some (some job)) (hjob : job.generation = generation) :
    dials generation jobs = dials generation (jobs.set slot none) + 1 := by
  have hset := countP_set_add (p := fun slot : Option PeerConnectJob => slot.any fun job =>
    job.generation = generation) (y := none) hslot
  rw [dials, dials]
  simpa [hjob] using hset.symm

/-- The attempt of a job does not change what it dials. -/
theorem dialing_replace (job' : PeerConnectJob) (hslot : jobs[slot]? = some (some job))
    (hgeneration : job'.generation = job.generation) (haddr : job'.addr = job.addr) :
    dialing generation (jobs.set slot (some job')) = dialing generation jobs ∧
      dials generation (jobs.set slot (some job')) = dials generation jobs := by
  refine ⟨funext fun addr => ?_, ?_⟩
  · have hset := countP_set_add (p := fun slot : Option PeerConnectJob => slot.any fun job =>
      job.generation = generation && job.addr = addr) (y := some job') hslot
    rw [Option.any_some, Option.any_some, hgeneration, haddr] at hset
    exact Nat.add_right_cancel hset
  · have hset := countP_set_add (p := fun slot : Option PeerConnectJob => slot.any fun job =>
      job.generation = generation) (y := some job') hslot
    rw [Option.any_some, Option.any_some, hgeneration] at hset
    exact Nat.add_right_cancel hset

/-- Jobs of another generation do not count. -/
theorem dialing_others {other : ℕ} {jobs' : List (Option PeerConnectJob)} (hne : generation ≠ other)
    (heq : others PeerConnectJob.generation other jobs' = others PeerConnectJob.generation other jobs) :
    dialing generation jobs' = dialing generation jobs ∧
      dials generation jobs' = dials generation jobs := by
  refine ⟨funext fun addr => ?_, ?_⟩
  · have hp : ∀ job : PeerConnectJob,
        (decide (job.generation = generation) && decide (job.addr = addr)) →
        job.generation ≠ other := fun job hjob => by
      rw [Bool.and_eq_true, decide_eq_true_eq] at hjob
      rwa [hjob.1]
    exact (countP_others hp).symm.trans ((congrArg _ heq).trans (countP_others hp))
  · have hp : ∀ job : PeerConnectJob, decide (job.generation = generation) →
        job.generation ≠ other := fun job hjob => by rwa [of_decide_eq_true hjob]
    exact (countP_others hp).symm.trans ((congrArg _ heq).trans (countP_others hp))

theorem dialing_eq_zero (h : ∀ job, some job ∈ jobs → job.generation ≠ generation) :
    (∀ addr, dialing generation jobs addr = 0) ∧ dials generation jobs = 0 := by
  refine ⟨fun addr => List.countP_eq_zero.2 fun slot hslot hany => ?_,
    List.countP_eq_zero.2 fun slot hslot hany => ?_⟩
  · obtain ⟨job, rfl, hjob⟩ := (Option.any_eq_true _ _).1 hany
    rw [Bool.and_eq_true, decide_eq_true_eq] at hjob
    exact h job hslot hjob.1
  · obtain ⟨job, rfl, hjob⟩ := (Option.any_eq_true _ _).1 hany
    exact h job hslot (of_decide_eq_true hjob)

/-! ## Steps -/

namespace ManagedTorrent.Linked

variable {mt' : ManagedTorrent}

theorem of_links (h : mt.Linked jobs) (hlinks : mt'.links = mt.links)
    (hgeneration : mt'.generation = mt.generation) : mt'.Linked jobs := by
  rw [Linked, hlinks, hgeneration]
  exact h

theorem disconnectPeer (i : ℕ) (h : w.mt.Linked w.peerConnectJobs) :
    (disconnectPeer i w).mt.Linked (disconnectPeer i w).peerConnectJobs := by
  cases hp : w.mt.peers[i]? with
  | none =>
    rw [disconnectPeer_of_none hp]
    exact h
  | some p =>
    have hsame : (PS5Torrent.disconnectPeer i w).mt.generation = w.mt.generation ∧
        (PS5Torrent.disconnectPeer i w).peerConnectJobs = w.peerConnectJobs := by
      obtain ⟨queries, candidates, log, active, -, -, heq⟩ := disconnectPeer_eq' hp
      rw [heq]
      exact ⟨rfl, rfl⟩
    rw [Linked, hsame.1, hsame.2, links_disconnectPeer hp]
    split
    case isTrue => exact h
    case isFalse hsock =>
      rw [Bool.not_eq_true, Option.isNone_eq_false_iff] at hsock
      exact Links.Ok.hangUp h ((getElem?_links_peers hp).trans (by rw [hsock]))

end ManagedTorrent.Linked

/-- The end of a piece changes no connection. -/
theorem links_finishPiece {index : ℕ} {data : Bytes} (hp : w.mt.peers[i]? = some p)
    (hhash : sha1Hash data = w.mt.torrent.pieceHash index)
    (hwrite : (w.writePiece index data).1 = true) :
    (finishPiece i p data index w).2.mt.links = w.mt.links ∧
      (finishPiece i p data index w).2.mt.generation = w.mt.generation ∧
      (finishPiece i p data index w).2.peerConnectJobs = w.peerConnectJobs := by
  obtain ⟨downloaded, heq⟩ := finishPiece_eq hp hhash hwrite
  have hset : (w.setPeer i { p.released with downloaded := downloaded }).mt.links = w.mt.links :=
    links_setPeer_of_same hp rfl rfl
  have hclear := links_clearFailures p.addr w.mt
  rw [heq]
  refine ⟨?_, rfl, rfl⟩
  calc _ = { (w.setPeer i { p.released with downloaded := downloaded }).mt.links with
        candidates := (clearFailures p.addr w.mt).links.candidates } := rfl
    _ = w.mt.links := by rw [hset, hclear]

theorem Work.Step.linked (hstep : Step w w') (hstate' : w'.mt.state = .downloading)
    (h : w.mt.Linked w.peerConnectJobs) : w'.mt.Linked w'.peerConnectJobs := by
  cases hstep with
  | query | speed => exact h
  | discovery | webSeed => exact h
  | fail => cases hstate'
  | report hmt =>
    rw [hmt]
    exact h
  | takeCandidate hne =>
    have htaken := Links.Ok.take h (List.map_eq_nil_iff.not.2 hne)
    rw [ManagedTorrent.links, List.length_map] at htaken
    exact htaken
  | @postpone c index now =>
    have hlinks := links_modifyCandidate (f := fun c => { c with retryAfter := now + 5 })
      (fun _ => ⟨rfl, rfl⟩) index w.mt
    exact h.of_links hlinks rfl
  | @connect c slot index now hslot hc hconnecting hnow hclosed hpending hactive =>
    have hlinks := links_modifyCandidate_of_get (f := fun c => { c with connecting := true }) hc
    have hget := getElem?_links_candidates hc
    rw [hconnecting] at hget
    have hset (addr : PeerAddr) := dialing_set hslot
      (rfl : PeerConnectJob.generation ⟨w.mt.generation, c.addr, [], none, false⟩ = w.mt.generation) addr
    have hdial := Links.Ok.dial h hget (peerIsConnected_eq_false_iff.1 hclosed) hpending hactive hset
    rw [← hlinks] at hdial
    rw [ManagedTorrent.Linked]
    have hdials : dials w.mt.generation (launchConnection slot index c.addr now w).peerConnectJobs =
        connectPending w + 1 := connectPending_launchConnection hslot
    exact hdials ▸ hdial
  | peer hp hp' =>
    refine h.of_links (links_setPeer_of_same hp ?_ ?_) rfl
    · rw [hp'.sameTransfer]
    · rw [hp'.sameTransfer]
  | receive hreceives => exact h.of_links (links_setPeer_of_same hreceives.peer rfl rfl) rfl
  | @finish i p buffer data hstate hreceives hfull hhash hwrite =>
    have hp' := getElem?_setPeer hreceives.peer (p.received buffer data)
    have hsame : (w.setPeer i (p.received buffer data)).mt.Linked w.peerConnectJobs :=
      h.of_links (links_setPeer_of_same hreceives.peer rfl rfl) rfl
    obtain ⟨hlinks, hgeneration, hjobs⟩ := links_finishPiece hp' hhash hwrite
    rw [hjobs]
    exact hsame.of_links hlinks hgeneration
  | @reject i p buffer data hreceives =>
    have hsame : (w.setPeer i (p.received buffer data)).mt.Linked w.peerConnectJobs :=
      h.of_links (links_setPeer_of_same hreceives.peer rfl rfl) rfl
    exact hsame.disconnectPeer i
  | writeFailed =>
    have hstate := (local_disconnectPeer _ _).state hstate'
    cases hstate
  | disconnect => exact h.disconnectPeer _
  | claim hstate hp => exact h.of_links (links_setPeer_of_same hp rfl rfl) rfl
  | request hp => exact h.of_links (links_setPeer_of_same hp rfl rfl) rfl

/-! ## Collection -/

/-- The candidate that is replaced is not dialed. -/
theorem replacedCandidate_eq_some {slot : ℕ} (h : replacedCandidate mt = some slot) :
    ∃ c, mt.peerCandidates[slot]? = some c ∧ c.connecting = false := by
  have hall : ∀ slot ∈ replacedCandidate mt, ∃ c, mt.peerCandidates[slot]? = some c ∧
      c.connecting = false := by
    rw [replacedCandidate]
    refine List.foldlRecOn (motive := fun best : Option ℕ => ∀ slot ∈ best,
      ∃ c, mt.peerCandidates[slot]? = some c ∧ c.connecting = false) _ _ ?_ ?_
    · simp
    · intro init hinit i _ slot hslot
      cases hc : mt.peerCandidates[i]? with
      | none =>
        rw [hc] at hslot
        exact hinit slot hslot
      | some c =>
        rw [hc] at hslot
        dsimp only at hslot
        split at hslot
        case isTrue hidle =>
          obtain rfl := Option.some.inj hslot
          rw [Bool.and_eq_true, Bool.and_eq_true, Bool.and_eq_true, Bool.not_eq_true'] at hidle
          exact ⟨c, hc, hidle.1.1.1⟩
        case isFalse => exact hinit slot hslot
  exact hall slot h

theorem linked_addCandidate (addr : PeerAddr) (h : mt.Linked jobs) :
    (addCandidate addr mt).Linked jobs := by
  rw [addCandidate]
  split
  case isTrue => exact h
  case isFalse hnew =>
    simp only [Bool.or_eq_true, not_or, Option.not_isSome_iff_eq_none] at hnew
    have hknown := findCandidate_eq_none_iff.1 hnew.2
    split
    case isTrue =>
      cases hslot : replacedCandidate mt with
      | none => exact h
      | some slot =>
        obtain ⟨c, hc, hidle⟩ := replacedCandidate_eq_some hslot
        have hget := getElem?_links_candidates hc
        rw [hidle] at hget
        have hlinks := links_modifyCandidate_of_get (f := fun _ => ⟨addr, 0, 0, false⟩) hc
        have hreplaced := Links.Ok.replace h hget hknown
        dsimp only
        rw [replaceCandidate, hc]
        rw [← hlinks] at hreplaced
        exact hreplaced
    case isFalse =>
      have hadded := Links.Ok.add h hknown
      rw [ManagedTorrent.Linked, ManagedTorrent.links]
      simp only [List.map_append, List.map_singleton]
      exact hadded

theorem linked_addCandidates (queue : List PeerAddr) (h : mt.Linked jobs) :
    (queue.foldl (fun mt addr => addCandidate addr mt) mt).Linked jobs := by
  induction queue generalizing mt with
  | nil => exact h
  | cons addr queue ih => exact ih (linked_addCandidate addr h)

theorem links_discovered (now : ℕ) (result mt : ManagedTorrent) :
    (result.discovered now mt).links = mt.links := by
  rw [ManagedTorrent.discovered, adoptTrackerError, countTrackerFailure]
  split_ifs <;> rfl

/-- A candidate whose address is dialed is marked so. -/
theorem connecting_of_dialed (h : mt.Linked jobs) (hdialed : 0 < mt.links.dialed c.addr)
    (hc : mt.peerCandidates[i]? = some c) : c.connecting = true := by
  by_contra hidle
  rw [Bool.not_eq_true] at hidle
  have hget := getElem?_links_candidates hc
  rw [hidle] at hget
  -- If the candidate were dialed as well, two would have the address.
  have hset := Links.dialed_set hget (c.addr, true) c.addr
  have hknown := Links.known_set hget (c.addr, true) c.addr
  have hle := Links.dialed_le_known
    { mt.links with candidates := mt.links.candidates.set i (c.addr, true) } c.addr
  have hone := h.known_le c.addr
  simp only [Bool.false_eq_true, false_and, true_and, if_false, if_true, add_zero] at hset hknown
  dsimp only at hset hknown hle
  omega

/-- There is a record for a new connection. -/
theorem exists_addPeer (p : TorrentPeer) (h : mt.links.opened < MAX_PEERS_PER_TORRENT) :
    ∃ mt', addPeer p mt = some mt' := by
  rw [addPeer]
  cases hslot : mt.peers.findIdx? fun p => p.sock.isNone with
  | some slot => exact ⟨_, rfl⟩
  | none =>
    refine ⟨_, if_pos ?_⟩
    rw [List.findIdx?_eq_none_iff] at hslot
    have hall : mt.links.opened = mt.peers.length := by
      rw [Links.opened, ManagedTorrent.links, List.countP_map, List.countP_eq_length]
      intro p hp
      exact Option.isNone_eq_false_iff.1 (hslot p hp)
    rwa [← hall]

/-- A connection is added. -/
theorem linked_addPeer {mt' : ManagedTorrent} (h : mt.Linked jobs)
    (hclosed : mt.links.connected p.addr = 0) (hidle : mt.links.dialed p.addr = 0)
    (hroom : mt.links.opened + dials mt.generation jobs < MAX_PEERS_PER_TORRENT)
    (hopen : p.sock.isSome) (hadd : addPeer p mt = some mt') : mt'.Linked jobs := by
  rw [addPeer] at hadd
  split at hadd
  case h_1 slot hslot =>
    obtain rfl := Option.some.inj hadd
    obtain ⟨hlt, hnone, -⟩ := List.findIdx?_eq_some_iff_getElem.1 hslot
    have hget : mt.links.peers[slot]? = some (false, mt.peers[slot].addr) := by
      rw [ManagedTorrent.links, List.getElem?_map, List.getElem?_eq_getElem hlt, Option.map_some,
        Option.isNone_iff_eq_none.1 hnone]
      rfl
    have hreopened := Links.Ok.reopen h hget hclosed hidle hroom
    rw [ManagedTorrent.Linked, ManagedTorrent.links]
    simp only [List.map_set, hopen]
    exact hreopened
  case h_2 =>
    split at hadd
    case isFalse => cases hadd
    case isTrue hlt =>
      obtain rfl := Option.some.inj hadd
      have hlength : mt.links.peers.length < MAX_PEERS_PER_TORRENT := by
        rw [ManagedTorrent.links, List.length_map]
        exact hlt
      have happended := Links.Ok.append h hclosed hidle hroom hlength
      rw [ManagedTorrent.Linked, ManagedTorrent.links]
      simp only [List.map_append, List.map_singleton, hopen]
      exact happended

/-- The candidate of a job that is collected is dialed no longer. -/
theorem linked_collect (h : mt.Linked jobs) (hslot : jobs[slot]? = some (some job))
    (hjob : job.generation = mt.generation) :
    let mt' := mt.updateCandidate job.addr fun c => { c with connecting := false }
    mt'.Linked (jobs.set slot none) ∧ mt'.links.connected job.addr = 0 ∧
      mt'.links.dialed job.addr = 0 ∧
      mt'.links.opened + dials mt.generation (jobs.set slot none) < MAX_PEERS_PER_TORRENT := by
  have herase := dialing_erase hslot hjob
  have hdials := dials_erase hslot hjob
  have hdialing := h.dialing_eq job.addr
  have honce := h.once job.addr
  have hroom := h.room
  rw [herase, if_pos rfl] at hdialing
  rw [hdials] at hroom
  have hknown : mt.links.known job.addr ≠ 0 := by
    have hle := Links.dialed_le_known mt.links job.addr
    omega
  obtain ⟨i, hi⟩ := Option.ne_none_iff_exists'.1 (findCandidate_eq_none_iff.not.2 hknown)
  obtain ⟨c, hc, haddr⟩ := findCandidate_eq_some hi
  have hconnecting := connecting_of_dialed h (by rw [haddr]; omega) hc
  have hget := getElem?_links_candidates hc
  rw [hconnecting, haddr] at hget
  have hlinks := links_modifyCandidate_of_get (f := fun c => { c with connecting := false }) hc
  have hlinked : mt.links.Ok (dialing mt.generation jobs)
      (dials mt.generation (jobs.set slot none) + 1) := hdials ▸ (h : mt.links.Ok _ _)
  have hcollected := hlinked.collect hget herase
  have hset := Links.dialed_set hget (job.addr, false) job.addr
  simp only [Bool.false_eq_true, false_and, true_and, if_false, if_true, add_zero] at hset
  have hupdate : mt.updateCandidate job.addr (fun c => { c with connecting := false }) =
      mt.modifyCandidate i fun c => { c with connecting := false } := by
    rw [ManagedTorrent.updateCandidate, hi]
  intro mt'
  have hmt' : mt'.links =
      { mt.links with candidates := mt.links.candidates.set i (job.addr, false) } := by
    rw [← haddr]
    exact (congrArg _ hupdate).trans hlinks
  have hgeneration : mt'.generation = mt.generation := by
    have hsame := congrArg ManagedTorrent.generation hupdate
    exact hsame
  rw [ManagedTorrent.Linked, hmt', hgeneration]
  refine ⟨hcollected, ?_, ?_, ?_⟩
  · change mt.links.connected job.addr = 0
    omega
  · dsimp only at hset ⊢
    omega
  · change mt.links.opened + _ < _
    omega

/-- A connection attempt that is collected. -/
theorem linked_applyConnection (h : w.mt.Linked w.peerConnectJobs)
    (hslot : w.peerConnectJobs[slot]? = some (some job)) (hjob : job.generation = w.mt.generation) :
    (applyConnection job w).mt.Linked ((applyConnection job w).peerConnectJobs.set slot none) := by
  obtain ⟨hlinked, hclosed, hidle, hroom⟩ := linked_collect h hslot hjob
  rw [peerConnectJobs_applyConnection, applyConnection]
  obtain ⟨candidates, hupdate⟩ :=
    updateCandidate_eq job.addr (fun c => { c with connecting := false }) w.mt
  have hgeneration : (w.mt.updateCandidate job.addr
      fun c => { c with connecting := false }).generation = w.mt.generation := by rw [hupdate]
  clear hupdate
  dsimp only at hlinked hclosed hidle hroom ⊢
  generalize w.mt.updateCandidate job.addr (fun c => { c with connecting := false }) = mt' at *
  cases job.sock with
  | none =>
    have hlinks := links_recordPeerFailure job.addr { w with mt := mt' }
    obtain ⟨queries, candidates', log, -, hrecord⟩ :=
      recordPeerFailure_eq job.addr { w with mt := mt' }
    exact hlinked.of_links hlinks (by rw [hrecord])
  | some sock =>
    dsimp only
    split
    case isTrue => exact hlinked
    case isFalse =>
      rw [← hgeneration] at hroom
      split
      case h_1 => exact hlinked
      case h_2 mt'' hadd => exact linked_addPeer hlinked hclosed hidle hroom rfl hadd

/-! ## Runs -/

/-- The connections of a downloading torrent agree with the jobs. -/
theorem downloadInvariant_linked :
    DownloadInvariant fun world mt => mt.Linked world.peerConnectJobs where
  fresh {world mt} hfresh hnone := by
    obtain ⟨hdialing, hdials⟩ := dialing_eq_zero hnone.peerConnect
    rw [ManagedTorrent.Linked, hdials]
    refine .empty hfresh.activePeers ?_ hfresh.nextCandidate ?_ hdialing
    · rw [ManagedTorrent.links, hfresh.peers]
      rfl
    · rw [ManagedTorrent.links, hfresh.peerCandidates]
      rfl
  next h := h
  reports hmt h := by
    rw [hmt]
    exact h
  step hstep _ _ hstate' h := hstep.linked hstate' h
  candidates _ _ _ h := linked_addCandidates _ h
  discovery {w slot job} _ _ _ _ h := by
    exact h.of_links (links_discovered w.outcome.time job.result w.mt)
      (local_applyDiscovery job.result w).generation
  connection _ hslot hjob h := linked_applyConnection h hslot hjob
  webSeed jobs hmoved hcommitted h := by
    rw [hcommitted, hmoved.eq]
    exact h
  others hconfined hne h := by
    obtain ⟨hdialing, hdials⟩ := dialing_others hne hconfined.peerConnect
    rw [ManagedTorrent.Linked, hdialing, hdials]
    exact h
  turn {torrents world world' mt} hturn hmt hstate h := by
    cases hturn with
    | @connectDone slot job sock remoteId hslot =>
      obtain ⟨hdialing, hdials⟩ :
          dialing mt.generation (world.peerConnectJobs.set slot
            (some { job with sock, remoteId, done := true })) =
              dialing mt.generation world.peerConnectJobs ∧
          dials mt.generation (world.peerConnectJobs.set slot
            (some { job with sock, remoteId, done := true })) =
              dials mt.generation world.peerConnectJobs := dialing_replace _ hslot rfl rfl
      rw [ManagedTorrent.Linked, hdialing, hdials]
      exact h
    | @dropConnection slot job hslot hdone hdead =>
      have hne : mt.generation ≠ job.generation := fun hgen => hdead mt hmt hgen hstate
      have hothers : others PeerConnectJob.generation job.generation
          (world.peerConnectJobs.set slot none) =
            others PeerConnectJob.generation job.generation world.peerConnectJobs :=
        others_set_own hslot rfl fun _ h => nomatch h
      obtain ⟨hdialing, hdials⟩ := dialing_others hne hothers
      rw [ManagedTorrent.Linked, hdialing, hdials]
      exact h
    | query | webSeedDone | skip | announce | discoveryDone | dropCandidates => exact h
    | dropDiscovery | dropWebSeed => exact h

variable {m : TorrentMgr}

/-- The connected peers have pairwise distinct addresses. -/
theorem nodup_of_connected (h : ∀ addr, mt.links.connected addr ≤ 1) :
    ((mt.peers.filter (·.sock.isSome)).map TorrentPeer.addr).Nodup := by
  rw [List.nodup_iff_count_le_one]
  intro addr
  have hcount := h addr
  rw [Links.connected, ManagedTorrent.links, List.countP_map] at hcount
  rw [List.count, List.countP_map, List.countP_filter]
  refine (List.countP_congr fun p _ => ?_).trans_le hcount
  simp only [Function.comp_apply, Bool.and_eq_true, beq_iff_eq, decide_eq_true_eq]
  exact And.comm

/-- The connections of a downloading torrent are counted right; connected peers
    have different addresses; a candidate is marked as dialed exactly if one job
    of the torrent dials it, and then it is not connected; at most four jobs
    dial, and with the connections there are never too many, so that a
    connection finds a record; and the next candidate is one of the table. -/
theorem connections_of_reachable (hm : Reachable m) (hmt : mt ∈ m.torrents)
    (hstate : mt.state = .downloading) :
    mt.activePeers = mt.peers.countP (·.sock.isSome) ∧
    ((mt.peers.filter (·.sock.isSome)).map TorrentPeer.addr).Nodup ∧
    (∀ c ∈ mt.peerCandidates, (c.connecting = true ↔
      dialing mt.generation m.peerConnectJobs c.addr = 1) ∧
      (c.connecting = true → peerIsConnected mt c.addr = false)) ∧
    dials mt.generation m.peerConnectJobs ≤ PEER_CONNECT_PARALLEL ∧
    mt.activePeers + dials mt.generation m.peerConnectJobs ≤ MAX_PEERS_PER_TORRENT ∧
    mt.peers.length ≤ MAX_PEERS_PER_TORRENT ∧
    (0 < dials mt.generation m.peerConnectJobs → ∀ p, ∃ mt', addPeer p mt = some mt') ∧
    (mt.peerCandidates ≠ [] → mt.nextCandidate < mt.peerCandidates.length) := by
  have hlinked := downloadInvariant_linked.reachable hm hmt hstate
  have hactive : mt.activePeers = mt.links.opened := hlinked.active
  have hroom := hlinked.room
  have hopened : mt.links.opened = mt.peers.countP (·.sock.isSome) := List.countP_map
  refine ⟨hopened ▸ hactive, nodup_of_connected fun addr => ?_, fun c hc => ?_, hlinked.pending_le,
    ?_, ?_, fun hpending p => exists_addPeer p ?_, fun hne => ?_⟩
  · have honce := hlinked.once addr
    omega
  · obtain ⟨i, hi⟩ := List.mem_iff_getElem?.1 hc
    have honce := hlinked.once c.addr
    rw [hlinked.dialing_eq]
    have hdialed : c.connecting = true → 0 < mt.links.dialed c.addr := fun hconnecting =>
      List.countP_pos_iff.2 ⟨_, List.mem_of_getElem? (getElem?_links_candidates hi), by
        rw [hconnecting]
        exact decide_eq_true rfl⟩
    refine ⟨⟨fun hconnecting => ?_, fun hone => ?_⟩, fun hconnecting => ?_⟩
    · have hpos := hdialed hconnecting
      omega
    · exact connecting_of_dialed hlinked (hone ▸ Nat.zero_lt_one) hi
    · have hpos := hdialed hconnecting
      exact peerIsConnected_eq_false_iff.2 (by omega)
  · rw [hactive]
    exact_mod_cast hroom
  · have hlength := hlinked.peers_le
    rw [ManagedTorrent.links, List.length_map] at hlength
    exact hlength
  · omega
  · have hnext := hlinked.next_lt
    have hpos := List.length_pos_iff.2 hne
    rw [ManagedTorrent.links, List.length_map] at hnext
    dsimp only at hnext
    omega

theorem connections_of_reachable_served : ∃ mt ∈ servedMgr.torrents, mt.activePeers = 1 ∧
    mt.activePeers = mt.peers.countP (·.sock.isSome) := by
  obtain ⟨mt, hmt, hstate, hactive⟩ := exists_servedMgr
  exact ⟨mt, hmt, hactive, (connections_of_reachable reachable_servedMgr hmt hstate).1⟩

end PS5Torrent
