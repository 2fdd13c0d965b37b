import PS5Torrent.TorrentMgr.Commit

/-!
# Moves

A run of the manager is a sequence of moves: an operation on one torrent
(`Work.Op`), a turn of the jobs that no torrent notices (`World.Turn`), or a
torrent that is added or removed (`moves_step`).
-/

namespace PS5Torrent

open Relation Work

/-- An operation on a torrent. -/
inductive Work.Op : Work → Work → Prop
  | tick {w w' : Work} (hstate : w.mt.state = .downloading) (hsteps : Steps w w') : Op w w'
  | complete {w : Work} (hstate : w.mt.state = .downloading)
      (hdone : pieceMgrIsDone w.mt.pieceMgr = true) : Op w (completeTorrent w)
  | start {w : Work} : Op w (startTorrent w).2
  | stop {w : Work} : Op w (stopTorrent w)
  | candidates {w : Work} {slot : ℕ} {job : DiscoveryJob} (hstate : w.mt.state = .downloading)
      (hslot : w.discoveryJobs[slot]? = some (some job))
      (hjob : job.result.generation = w.mt.generation) :
      Op w { w with
        mt := job.queue.foldl (fun mt addr => addCandidate addr mt) w.mt
        discoveryJobs := w.discoveryJobs.set slot (some { job with queue := [] }) }
  | discovery {w : Work} {slot : ℕ} {job : DiscoveryJob} (hstate : w.mt.state = .downloading)
      (hslot : w.discoveryJobs[slot]? = some (some job))
      (hjob : job.result.generation = w.mt.generation) (hdone : job.done) :
      Op w { applyDiscovery job.result w with discoveryJobs := w.discoveryJobs.set slot none }
  | connection {w : Work} {slot : ℕ} {job : PeerConnectJob} (hstate : w.mt.state = .downloading)
      (hslot : w.peerConnectJobs[slot]? = some (some job)) (hjob : job.generation = w.mt.generation)
      (hdone : job.done) :
      Op w { applyConnection job w with
        peerConnectJobs := (applyConnection job w).peerConnectJobs.set slot none }
  | webSeed {w : Work} {slot : ℕ} {job : WebSeedJob} (hstate : w.mt.state = .downloading)
      (hslot : w.webSeedJobs[slot]? = some (some job)) (hjob : job.generation = w.mt.generation)
      (hdone : job.done) :
      Op w { applyWebSeed job w with
        webSeedJobs := (applyWebSeed job w).webSeedJobs.set slot none }

/-- None of the torrents is the one that a job is for, or it is not downloading any more. -/
def Dead (torrents : List ManagedTorrent) (generation : ℕ) : Prop :=
  ∀ mt ∈ torrents, mt.generation = generation → mt.state ≠ .downloading

/-- A turn of the jobs: the clock is read, a worker takes a step, or what a job
    brings is dropped. -/
inductive World.Turn (torrents : List ManagedTorrent) : World → World → Prop
  | query {world : World} : Turn torrents world { world with queries := world.queries + 1 }
  | webSeedDone {world : World} {slot : ℕ} {job : WebSeedJob} (net : Net)
      (hslot : world.webSeedJobs[slot]? = some (some job)) (hdone : job.done = false) :
      Turn torrents world
        { world with webSeedJobs := world.webSeedJobs.set slot (some (fetchWebSeedPiece net job)) }
  | connectDone {world : World} {slot : ℕ} {job : PeerConnectJob} (sock : Option ℕ)
      (remoteId : Bytes) (hslot : world.peerConnectJobs[slot]? = some (some job))
      (hdone : job.done = false) :
      Turn torrents world
        { world with
          peerConnectJobs :=
            world.peerConnectJobs.set slot (some { job with sock, remoteId, done := true }) }
  | skip {world : World} {slot : ℕ} {job : DiscoveryJob} {primary : Bool} {url : Bytes}
      {urls : List (Bool × Bytes)} (hslot : world.discoveryJobs[slot]? = some (some job))
      (hurls : job.urls = (primary, url) :: urls) (hasks : job.asks primary url = false) :
      Turn torrents world
        { world with
          discoveryJobs := world.discoveryJobs.set slot (some { job.skip url with urls := urls }) }
  | announce {world : World} {slot : ℕ} {job : DiscoveryJob} {primary : Bool} {url : Bytes}
      {urls : List (Bool × Bytes)} (response : Option TrackerResponse)
      (hslot : world.discoveryJobs[slot]? = some (some job))
      (hurls : job.urls = (primary, url) :: urls) (hasks : job.asks primary url = true) :
      Turn torrents world
        { world with
          queries := world.queries + 1
          discoveryJobs :=
            world.discoveryJobs.set slot (some { job.answered response with urls := urls })
          announces := ⟨job.result.generation, job.result.torrent, url,
            (world.env world.queries).time,
            response.bind fun r => if r.failure then none else some r.interval⟩ ::
              world.announces }
  | discoveryDone {world : World} {slot : ℕ} {job : DiscoveryJob}
      (hslot : world.discoveryJobs[slot]? = some (some job)) (hdone : job.done = false)
      (hurls : job.urls = []) :
      Turn torrents world
        { world with discoveryJobs := world.discoveryJobs.set slot (some job.finished) }
  | dropCandidates {world : World} {slot : ℕ} {job : DiscoveryJob}
      (hslot : world.discoveryJobs[slot]? = some (some job))
      (hdead : Dead torrents job.result.generation) :
      Turn torrents world
        { world with discoveryJobs := world.discoveryJobs.set slot (some { job with queue := [] }) }
  | dropDiscovery {world : World} {slot : ℕ} {job : DiscoveryJob}
      (hslot : world.discoveryJobs[slot]? = some (some job)) (hdone : job.done)
      (hdead : Dead torrents job.result.generation) :
      Turn torrents world { world with discoveryJobs := world.discoveryJobs.set slot none }
  | dropConnection {world : World} {slot : ℕ} {job : PeerConnectJob}
      (hslot : world.peerConnectJobs[slot]? = some (some job)) (hdone : job.done)
      (hdead : Dead torrents job.generation) :
      Turn torrents world { world with peerConnectJobs := world.peerConnectJobs.set slot none }
  | dropWebSeed {world : World} {slot : ℕ} {job : WebSeedJob}
      (hslot : world.webSeedJobs[slot]? = some (some job)) (hdone : job.done)
      (hdead : Dead torrents job.generation) :
      Turn torrents world { world with webSeedJobs := world.webSeedJobs.set slot none }

/-- A record that is added, from metainfo that was accepted or a magnet link. -/
def ManagedTorrent.IsAdded (generation : ℕ) (mt : ManagedTorrent) : Prop :=
  ∃ t savePath isMagnet magnetUri peerId,
    mt = .added generation t savePath isMagnet magnetUri peerId ∧ mt.Accepted

namespace TorrentMgr

/-- A move of the manager. -/
inductive Move : TorrentMgr → TorrentMgr → Prop
  | op {m : TorrentMgr} {i : ℕ} {mt : ManagedTorrent} {w : Work} (hmt : m.torrents[i]? = some mt)
      (hop : Op ⟨m.toWorld, mt⟩ w) : Move m ⟨w.toWorld, m.torrents.set i w.mt⟩
  | turn {m : TorrentMgr} {world : World} (hturn : World.Turn m.torrents m.toWorld world) :
      Move m { m with toWorld := world }
  | add {m : TorrentMgr} {mt : ManagedTorrent} (hadded : mt.IsAdded m.nextGeneration)
      (hroom : m.torrents.length < MAX_TORRENTS) :
      Move m { m with
        nextGeneration := m.nextGeneration + 1
        torrents := m.torrents ++ [mt] }
  | remove {m : TorrentMgr} {i : ℕ} {mt : ManagedTorrent} (hmt : m.torrents[i]? = some mt)
      (hpeers : mt.peers = []) (hstate : mt.state = .stopped) :
      Move m { m with torrents := m.torrents.eraseIdx i }

/-- Any number of moves. -/
abbrev Moves : TorrentMgr → TorrentMgr → Prop := ReflTransGen Move

/-- A move that removes no torrent. -/
def Stay (m m' : TorrentMgr) : Prop := Move m m' ∧ m.torrents.length ≤ m'.torrents.length

/-- Any number of moves that remove no torrent. -/
abbrev Stays : TorrentMgr → TorrentMgr → Prop := ReflTransGen Stay

namespace Stay

variable {m : TorrentMgr}

theorem op {i : ℕ} {mt : ManagedTorrent} {w : Work} (hmt : m.torrents[i]? = some mt)
    (hop : Op ⟨m.toWorld, mt⟩ w) : Stay m ⟨w.toWorld, m.torrents.set i w.mt⟩ :=
  ⟨.op hmt hop, List.length_set.ge⟩

theorem turn {world : World} (hturn : World.Turn m.torrents m.toWorld world) :
    Stay m { m with toWorld := world } :=
  ⟨.turn hturn, le_rfl⟩

theorem add {mt : ManagedTorrent} (hadded : mt.IsAdded m.nextGeneration)
    (hroom : m.torrents.length < MAX_TORRENTS) :
    Stay m { m with
      nextGeneration := m.nextGeneration + 1
      torrents := m.torrents ++ [mt] } :=
  ⟨.add hadded hroom, by simp⟩

end Stay

theorem Stays.moves {m m' : TorrentMgr} (h : Stays m m') : Moves m m' :=
  ReflTransGen.mono (fun _ _ hstay => hstay.1) _ _ h

end TorrentMgr

open TorrentMgr

variable {m : TorrentMgr} {i slot generation now : ℕ}

/-! ## The live torrent -/

/-- The live torrent of a generation has it and is downloading. -/
theorem live_eq_some (h : m.live generation = some i) :
    ∃ mt, m.torrents[i]? = some mt ∧ mt.generation = generation ∧ mt.state = .downloading := by
  have hany := List.find?_some h
  rw [Option.any_eq_true] at hany
  obtain ⟨mt, hmt, hlive⟩ := hany
  rw [Bool.and_eq_true, decide_eq_true_eq, decide_eq_true_eq] at hlive
  exact ⟨mt, hmt, hlive⟩

/-- A generation without a live torrent is dead. -/
theorem dead_of_live (h : m.live generation = none) : Dead m.torrents generation := by
  intro mt hmem hgen hstate
  obtain ⟨i, hi, hget⟩ := List.getElem_of_mem hmem
  have hnone := List.find?_eq_none.1 h i (List.mem_reverse.2 (List.mem_range.2 hi))
  refine hnone ?_
  rw [List.getElem?_eq_getElem hi, hget, Option.any_some, hgen, hstate]
  simp

theorem onTorrent_eq {mt : ManagedTorrent} {f : Work → Work} (h : m.torrents[i]? = some mt) :
    m.onTorrent i f =
      ⟨(f ⟨m.toWorld, mt⟩).toWorld, m.torrents.set i (f ⟨m.toWorld, mt⟩).mt⟩ := by
  rw [onTorrent, h]

theorem onTorrent_of_none {f : Work → Work} (h : m.torrents[i]? = none) : m.onTorrent i f = m := by
  rw [onTorrent, h]

/-- An operation on the torrent at an index, if there is one. -/
theorem stays_onTorrent {f : Work → Work}
    (hf : ∀ mt, m.torrents[i]? = some mt → Op ⟨m.toWorld, mt⟩ (f ⟨m.toWorld, mt⟩)) :
    Stays m (m.onTorrent i f) := by
  cases h : m.torrents[i]? with
  | none => rw [onTorrent_of_none h]
  | some mt =>
    rw [onTorrent_eq h]
    exact .single (.op h (hf mt h))

/-! ## Collection -/

theorem stays_collectWebSeedJob : Stays m (m.collectWebSeedJob slot) := by
  rw [collectWebSeedJob]
  cases hjoin : m.webSeedJobs[slot]?.join with
  | none => exact .refl
  | some job =>
    have hslot := Slots.getElem?_of_join hjoin
    dsimp only
    split
    case isTrue => exact .refl
    case isFalse hdone =>
      rw [Bool.not_eq_true, Bool.not_eq_false'] at hdone
      rw [onLive]
      cases hlive : m.live job.generation with
      | none => exact .single (.turn (.dropWebSeed hslot hdone (dead_of_live hlive)))
      | some i =>
        obtain ⟨mt, hmt, hgen, hstate⟩ := live_eq_some hlive
        dsimp only
        rw [onTorrent_eq hmt]
        exact .single (.op hmt (.webSeed hstate hslot hgen.symm hdone))

theorem stays_collectPeerConnectJob : Stays m (m.collectPeerConnectJob slot) := by
  rw [collectPeerConnectJob]
  cases hjoin : m.peerConnectJobs[slot]?.join with
  | none => exact .refl
  | some job =>
    have hslot := Slots.getElem?_of_join hjoin
    dsimp only
    split
    case isTrue => exact .refl
    case isFalse hdone =>
      rw [Bool.not_eq_true, Bool.not_eq_false'] at hdone
      rw [onLive]
      cases hlive : m.live job.generation with
      | none => exact .single (.turn (.dropConnection hslot hdone (dead_of_live hlive)))
      | some i =>
        obtain ⟨mt, hmt, hgen, hstate⟩ := live_eq_some hlive
        dsimp only
        rw [onTorrent_eq hmt]
        exact .single (.op hmt (.connection hstate hslot hgen.symm hdone))

/-- A queue is taken: the live torrent gets the addresses, and otherwise they are dropped. -/
theorem stay_queue {job : DiscoveryJob} (hslot : m.discoveryJobs[slot]? = some (some job)) :
    let m' := m.onLive job.result.generation fun w =>
      { w with mt := job.queue.foldl (fun mt addr => addCandidate addr mt) w.mt }
    Stay m { m' with discoveryJobs := m'.discoveryJobs.set slot (some { job with queue := [] }) } := by
  rw [onLive]
  cases hlive : m.live job.result.generation with
  | none => exact .turn (.dropCandidates hslot (dead_of_live hlive))
  | some i =>
    obtain ⟨mt, hmt, hgen, hstate⟩ := live_eq_some hlive
    dsimp only
    rw [onTorrent_eq hmt]
    exact .op hmt (.candidates hstate hslot hgen.symm)

/-- A discovery that is done is collected. -/
theorem stay_discovery {job : DiscoveryJob} (hslot : m.discoveryJobs[slot]? = some (some job))
    (hdone : job.done) :
    let m' := m.onLive job.result.generation (applyDiscovery job.result)
    Stay m { m' with discoveryJobs := m'.discoveryJobs.set slot none } := by
  rw [onLive]
  cases hlive : m.live job.result.generation with
  | none => exact .turn (.dropDiscovery hslot hdone (dead_of_live hlive))
  | some i =>
    obtain ⟨mt, hmt, hgen, hstate⟩ := live_eq_some hlive
    dsimp only
    rw [onTorrent_eq hmt]
    exact .op hmt (.discovery hstate hslot hgen.symm hdone)

/-- Work that does not touch the discoveries leaves them as they are. -/
theorem discoveryJobs_onLive {f : Work → Work} (hf : ∀ w, (f w).discoveryJobs = w.discoveryJobs) :
    (m.onLive generation f).discoveryJobs = m.discoveryJobs := by
  rw [onLive]
  cases m.live generation with
  | none => rfl
  | some i =>
    dsimp only
    cases hmt : m.torrents[i]? with
    | none => rw [onTorrent_of_none hmt]
    | some mt =>
      rw [onTorrent_eq hmt]
      exact hf _

/-- What a discovery tells its torrent does not depend on the slots. -/
theorem onLive_applyDiscovery (result : ManagedTorrent) (jobs : List (Option DiscoveryJob)) :
    { m with discoveryJobs := jobs : TorrentMgr }.onLive generation (applyDiscovery result) =
      { m.onLive generation (applyDiscovery result) with discoveryJobs := jobs } := by
  rw [onLive, onLive]
  have hlive : { m with discoveryJobs := jobs : TorrentMgr }.live generation = m.live generation :=
    rfl
  rw [hlive]
  cases m.live generation with
  | none => rfl
  | some i =>
    dsimp only
    rw [onTorrent, onTorrent]
    cases m.torrents[i]? with
    | none => rfl
    | some mt => rfl

theorem stays_collectDiscoveryJob : Stays m (m.collectDiscoveryJob slot) := by
  rw [collectDiscoveryJob]
  cases hjoin : m.discoveryJobs[slot]?.join with
  | none => exact .refl
  | some job =>
    have hslot := Slots.getElem?_of_join hjoin
    have hqueue := stay_queue hslot
    have hjobs : (m.onLive job.result.generation fun w => { w with
        mt := job.queue.foldl (fun mt addr => addCandidate addr mt) w.mt }).discoveryJobs =
        m.discoveryJobs := discoveryJobs_onLive fun _ => rfl
    dsimp only at hqueue ⊢
    generalize m.onLive job.result.generation (fun w => { w with
      mt := job.queue.foldl (fun mt addr => addCandidate addr mt) w.mt }) = m₁ at hqueue hjobs ⊢
    split
    case isTrue => exact .single hqueue
    case isFalse hdone =>
      rw [Bool.not_eq_true, Bool.not_eq_false'] at hdone
      have hslot₁ : (m₁.discoveryJobs.set slot (some { job with queue := [] }))[slot]? =
          some (some { job with queue := [] }) :=
        List.getElem?_set_self (hjobs ▸ (List.getElem?_eq_some_iff.1 hslot).1)
      have hdiscovery := stay_discovery
        (m := { m₁ with discoveryJobs := m₁.discoveryJobs.set slot (some { job with queue := [] }) })
        hslot₁ hdone
      dsimp only at hdiscovery
      rw [onLive_applyDiscovery] at hdiscovery
      dsimp only at hdiscovery
      rw [List.set_set] at hdiscovery
      have hjobs₁ : (m₁.onLive job.result.generation (applyDiscovery job.result)).discoveryJobs =
          m₁.discoveryJobs := discoveryJobs_onLive fun _ => rfl
      rw [hjobs₁]
      exact .tail (.single hqueue) hdiscovery

theorem stays_foldl {f : TorrentMgr → ℕ → TorrentMgr} (h : ∀ m i, Stays m (f m i)) (is : List ℕ) :
    Stays m (is.foldl f m) := by
  induction is generalizing m with
  | nil => exact .refl
  | cons i is ih => exact (h m i).trans ih

/-! ## Events -/

theorem stays_torrentMgrAdd {t : Torrent} {savePath magnetUri peerId : Bytes} {isMagnet : Bool}
    (haccepted : (ManagedTorrent.added m.nextGeneration t savePath isMagnet magnetUri
      peerId).Accepted) : Stays m (m.torrentMgrAdd t savePath isMagnet magnetUri peerId).2 := by
  rw [torrentMgrAdd]
  split
  case isTrue => exact .refl
  case isFalse hroom => exact .single (.add ⟨_, _, _, _, _, rfl, haccepted⟩ (not_le.1 hroom))

theorem stays_addRaw {data savePath peerId : Bytes} (hlen : data.length ≤ HTTP_MAX_BODY) :
    Stays m (m.torrentMgrAddRaw data savePath peerId).2 := by
  rw [torrentMgrAddRaw]
  cases hparse : torrentParse data with
  | none => exact .refl
  | some t =>
    refine stays_torrentMgrAdd ?_
    rw [ManagedTorrent.Accepted, if_neg (by exact Bool.false_ne_true)]
    exact ⟨data, hlen, hparse⟩

theorem stays_torrentMgrStop (index : ℤ) : Stays m (m.torrentMgrStop index) := by
  rw [torrentMgrStop]
  split
  · exact .refl
  · exact stays_onTorrent fun _ _ => .stop

theorem moves_torrentMgrRemove (index : ℤ) : Moves m (m.torrentMgrRemove index) := by
  rw [torrentMgrRemove]
  split
  case isTrue => exact .refl
  case isFalse hindex =>
    dsimp only
    refine (stays_torrentMgrStop index).moves.trans ?_
    rw [torrentMgrStop, if_neg hindex]
    cases hmt : m.torrents[index.toNat]? with
    | none =>
      rw [onTorrent_of_none hmt, List.eraseIdx_of_length_le (List.getElem?_eq_none_iff.1 hmt)]
    | some mt =>
      obtain ⟨queries, bytes, releases, pm, -, hstop⟩ := stopTorrent_eq ⟨m.toWorld, mt⟩
      rw [onTorrent_eq hmt]
      refine .single (.remove (List.getElem?_set_self (List.getElem?_eq_some_iff.1 hmt).1) ?_ ?_)
      · rw [hstop]
      · rw [hstop]

theorem stays_torrentMgrStart (index : ℤ) : Stays m (m.torrentMgrStart index).2 := by
  rw [torrentMgrStart]
  split
  case isTrue => exact .refl
  case isFalse =>
    cases m.torrents[index.toNat]? with
    | none => exact .refl
    | some mt => exact stays_onTorrent (f := fun w => (startTorrent w).2) fun _ _ => .start

/-- A worker that is done takes no step. -/
theorem runWorker_cases {Job : Type} (done : Job → Bool) (f : Job → Job) (jobs : List (Option Job)) :
    runWorker done f slot jobs = jobs ∨ ∃ job, jobs[slot]? = some (some job) ∧ done job = false ∧
      runWorker done f slot jobs = jobs.set slot (some (f job)) := by
  rw [runWorker]
  cases hslot : jobs[slot]? with
  | none => exact .inl (List.modify_eq_self (List.getElem?_eq_none_iff.1 hslot))
  | some entry =>
    obtain ⟨hlt, hget⟩ := List.getElem?_eq_some_iff.1 hslot
    rw [List.modify_eq_set, hslot, Option.getD_some]
    cases entry with
    | none =>
      left
      rw [Option.map_none, ← hget, List.set_getElem_self]
    | some job =>
      rw [Option.map_some]
      cases hdone : done job with
      | true =>
        left
        rw [if_pos rfl, ← hget, List.set_getElem_self]
      | false => exact .inr ⟨job, rfl, hdone, by rw [if_neg Bool.false_ne_true]⟩

theorem stays_announceNext (response : Option TrackerResponse) :
    Stays m (m.announceNext slot response) := by
  rw [announceNext]
  cases hjoin : m.discoveryJobs[slot]?.join with
  | none => exact .refl
  | some job =>
    have hslot := Slots.getElem?_of_join hjoin
    dsimp only
    cases hurls : job.urls with
    | nil => exact .refl
    | cons tracker urls =>
      dsimp only
      split
      case isTrue hasks =>
        rw [Bool.not_eq_true'] at hasks
        exact .single (.turn (.skip hslot hurls hasks))
      case isFalse hasks =>
        rw [Bool.not_eq_true, Bool.not_eq_false'] at hasks
        exact .single (.turn (.announce response hslot hurls hasks))

end PS5Torrent
