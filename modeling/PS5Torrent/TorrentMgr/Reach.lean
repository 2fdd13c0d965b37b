import PS5Torrent.TorrentMgr.Run

/-!
# Reachable states

Every event of a run is a sequence of moves (`moves_step`), so that what moves
keep holds in every reachable state (`Reachable.induction`,
`Invariant.reachable`). In a tick, the clock is read after the time of the last
announce of each torrent was (`invariant_timed`).
-/

namespace PS5Torrent

open Sha1 Slots Relation Work TorrentMgr

/-! ## Announcing -/

/-- What a torrent keeps of its rounds of tracker requests. -/
structure Announcing where
  lastAnnounceTime : ℕ
  trackerInterval : ℤ
  trackerFailures : ℕ
  rounds : List RoundLog

def ManagedTorrent.announcing (mt : ManagedTorrent) : Announcing :=
  ⟨mt.lastAnnounceTime, mt.trackerInterval, mt.trackerFailures, mt.rounds⟩

variable {w w' : Work} {mt mt' : ManagedTorrent} {i now : ℕ}

theorem announcing_disconnectPeer (i : ℕ) (w : Work) :
    (disconnectPeer i w).mt.announcing = w.mt.announcing := by
  cases hp : w.mt.peers[i]? with
  | none => rw [disconnectPeer_of_none hp]
  | some p =>
    obtain ⟨queries, candidates, log, active, -, -, heq⟩ := disconnectPeer_eq' hp
    rw [heq]
    rfl

/-- A step starts a round, or leaves the rounds and the announces as they are. -/
theorem Work.Step.announcing_or (hstep : Step w w') :
    w'.mt.announcing = w.mt.announcing ∧ w'.discoveryJobs = w.discoveryJobs ∨
      ∃ slot now, w.discoveryJobs[slot]?.join = none ∧
        (∀ job, some job ∈ w.discoveryJobs → job.result.generation ≠ w.mt.generation) ∧
        w.mt.AnnounceDue now ∧ w.mt.ReadAfter w.toWorld now ∧ w' = launchDiscovery slot now w := by
  have hdisconnect (i : ℕ) (w : Work) : (disconnectPeer i w).discoveryJobs = w.discoveryJobs := by
    cases hp : w.mt.peers[i]? with
    | none => rw [disconnectPeer_of_none hp]
    | some p =>
      obtain ⟨queries, candidates, log, active, -, -, heq⟩ := disconnectPeer_eq' hp
      rw [heq]
      rfl
  cases hstep with
  | discovery hslot hnone hdue hread => exact .inr ⟨_, _, hslot, hnone, hdue, hread, rfl⟩
  | report hmt =>
    rw [hmt]
    exact .inl ⟨rfl, rfl⟩
  | query | speed | takeCandidate | postpone | connect | peer | receive | fail => exact .inl ⟨rfl, rfl⟩
  | claim | request | webSeed => exact .inl ⟨rfl, rfl⟩
  | finish hstate hreceives hfull hhash hwrite =>
    obtain ⟨downloaded, heq⟩ := finishPiece_eq (getElem?_setPeer hreceives.peer _) hhash hwrite
    rw [heq]
    exact .inl ⟨rfl, rfl⟩
  | reject | writeFailed | disconnect =>
    exact .inl ⟨announcing_disconnectPeer _ _, hdisconnect _ _⟩

theorem announcing_disconnectPeers (w : Work) :
    (disconnectPeers w).mt.announcing = w.mt.announcing := by
  obtain ⟨queries, bytes, releases, peers, candidates, log, active, pm, -, -, heq⟩ :=
    disconnectPeers_eq w
  rw [heq]
  rfl

theorem announcing_addCandidate (addr : PeerAddr) (mt : ManagedTorrent) :
    (addCandidate addr mt).announcing = mt.announcing := by
  rw [addCandidate]
  split
  case isTrue => rfl
  case isFalse =>
    split
    case isTrue =>
      cases replacedCandidate mt with
      | none => rfl
      | some slot =>
        dsimp only
        rw [replaceCandidate]
        split
        · rfl
        · rfl
    case isFalse => rfl

theorem announcing_addCandidates (queue : List PeerAddr) (mt : ManagedTorrent) :
    (queue.foldl (fun mt addr => addCandidate addr mt) mt).announcing = mt.announcing := by
  induction queue generalizing mt with
  | nil => rfl
  | cons addr queue ih => exact (ih _).trans (announcing_addCandidate addr mt)

theorem announcing_applyConnection (job : PeerConnectJob) (w : Work) :
    (applyConnection job w).mt.announcing = w.mt.announcing := by
  rw [applyConnection]
  obtain ⟨candidates, hupdate⟩ := updateCandidate_eq job.addr _ w.mt
  rw [hupdate]
  dsimp only
  cases job.sock with
  | none =>
    obtain ⟨queries, candidates', log, -, heq⟩ :=
      recordPeerFailure_eq job.addr { w with mt.peerCandidates := candidates }
    dsimp only
    rw [heq]
    rfl
  | some sock =>
    dsimp only
    split
    case isTrue => rfl
    case isFalse =>
      split
      case h_1 => rfl
      case h_2 mt hadd =>
        obtain ⟨peers, active, rfl⟩ := addPeer_eq hadd
        rfl

/-- A download begins without an announce. -/
theorem lastAnnounceTime_openTorrent (w : Work) :
    (openTorrent w).2.mt.lastAnnounceTime = 0 ∨
      (openTorrent w).2.mt.lastAnnounceTime = w.mt.lastAnnounceTime := by
  rw [openTorrent]
  split
  case isTrue => exact .inr rfl
  case isFalse =>
    dsimp only
    split
    case isTrue => exact .inr rfl
    case isFalse =>
      split
      · exact .inl rfl
      · exact .inr rfl

theorem lastAnnounceTime_startTorrent (w : Work) :
    (startTorrent w).2.mt.lastAnnounceTime = 0 ∨
      (startTorrent w).2.mt.lastAnnounceTime = w.mt.lastAnnounceTime := by
  have hreset : (resetTorrent w).mt.lastAnnounceTime = w.mt.lastAnnounceTime := by
    rw [resetTorrent]
    split
    case isTrue =>
      obtain ⟨queries, bytes, releases, pm, -, heq⟩ := stopTorrent_eq w
      rw [heq]
    case isFalse => rfl
  rw [startTorrent]
  split
  case isTrue => exact .inr rfl
  case isFalse =>
    dsimp only
    cases ensureDirectoryTree (resetTorrent w).mt.savePath (resetTorrent w).sys with
    | error e sys => exact .inr hreset
    | ok _ sys => exact hreset ▸ lastAnnounceTime_openTorrent { resetTorrent w with sys := sys }

/-! ## Times -/

/-- The clock does not go back. -/
def World.ClockMonotone (world : World) : Prop := Monotone fun k => (world.env k).time

theorem le_time_of_read (hclock : w.ClockMonotone) (h : w.Read now) : now ≤ w.outcome.time := by
  obtain ⟨k, hk, rfl⟩ := h
  exact hclock hk.le

theorem ManagedTorrent.Timed.of_eq {world world' : World} (h : mt.Timed world)
    (hworld : ∀ time, world.Read time → world'.Read time)
    (hlast : mt'.announcing = mt.announcing) : mt'.Timed world' := by
  have hlast' : mt'.lastAnnounceTime = mt.lastAnnounceTime :=
    congrArg Announcing.lastAnnounceTime hlast
  rw [ManagedTorrent.Timed, hlast']
  exact h.imp_right (hworld _)

theorem Work.Steps.timed (hsteps : Steps w w') (h : w.mt.Timed w.toWorld) :
    w'.mt.Timed w'.toWorld := by
  induction hsteps with
  | refl => exact h
  | tail _ hstep ih =>
    rcases hstep.announcing_or with ⟨hsame, -⟩ | ⟨slot, now, -, -, -, -, rfl⟩
    · exact ih.of_eq (fun _ => hstep.local.world.read) hsame
    · exact .inr ⟨_, Nat.lt_succ_self _, rfl⟩

/-- The time of the last announce of each torrent was read before. -/
theorem invariant_timed : Invariant fun world mt => mt.Timed world where
  added hadded _ := by
    obtain ⟨t, savePath, isMagnet, magnetUri, peerId, rfl, -⟩ := hadded
    exact .inl rfl
  next h := h
  op {w w'} hop hsound h := by
    have hextends := (hop.confined hsound).world
    cases hop with
    | tick hstate hsteps => exact hsteps.timed h
    | complete => exact h.of_eq (fun _ => hextends.read) (announcing_disconnectPeers w)
    | start =>
      rcases lastAnnounceTime_startTorrent w with hzero | heq
      · exact .inl hzero
      · rw [ManagedTorrent.Timed, heq]
        exact h.imp_right hextends.read
    | stop =>
      obtain ⟨queries, bytes, releases, pm, hle, heq⟩ := stopTorrent_eq w
      rw [heq]
      rcases h with hzero | ⟨k, hk, htime⟩
      · exact .inl hzero
      · exact .inr ⟨k, hk.trans_le hle, htime⟩
    | @candidates slot job => exact h.of_eq (fun _ h => h) (announcing_addCandidates job.queue w.mt)
    | @discovery slot job =>
      have hlast : (job.result.discovered w.outcome.time w.mt).lastAnnounceTime =
          w.outcome.time := by
        rw [ManagedTorrent.discovered, adoptTrackerError, countTrackerFailure]
        split_ifs <;> rfl
      refine .inr ⟨w.queries, Nat.lt_succ_self _, hlast.symm⟩
    | @connection slot job =>
      exact h.of_eq (fun _ => hextends.read) (announcing_applyConnection job w)
    | @webSeed slot job hstate hslot hjob =>
      obtain ⟨first, hcommit⟩ := committing_collect hsound hstate hslot hjob
      refine h.of_eq (fun _ => hextends.read) ?_
      change (applyWebSeed job w).mt.announcing = w.mt.announcing
      rw [hcommit.torrent]
      rfl
  others hconfined _ _ h := h.imp_right hconfined.world.read
  turn hturn _ _ h := by
    obtain ⟨henv, hle⟩ := hturn.env_queries
    rcases h with hzero | ⟨k, hk, htime⟩
    · exact .inl hzero
    · exact .inr ⟨k, hk.trans_le hle, by rw [henv, htime]⟩

theorem ManagedTorrent.ReadAfter.mono {world world' : World} (hworld : world.Extends world')
    (h : mt.ReadAfter world now) : mt.ReadAfter world' now := by
  obtain ⟨k, hk, htime, htimed⟩ := h
  refine ⟨k, hk.trans_le hworld.queries, by rw [hworld.env, htime], htimed.imp_right ?_⟩
  rintro ⟨j, hj, hlast⟩
  exact ⟨j, hj, (congrArg (fun env => (env j).time) hworld.env).trans hlast⟩

variable {m m' : TorrentMgr}

/-! ## The tick -/

/-- A torrent takes its part of a tick at a time that was read after its last announce. -/
theorem stays_tickTorrent (i : ℕ)
    (hread : ∀ mt, m.torrents[i]? = some mt → mt.ReadAfter m.toWorld now) :
    Stays m (m.onTorrent i (tickTorrent now)) ∧
      m.toWorld.Extends (m.onTorrent i (tickTorrent now)).toWorld := by
  cases hmt : m.torrents[i]? with
  | none =>
    rw [onTorrent_of_none hmt]
    exact ⟨.refl, .refl _⟩
  | some mt =>
    rw [onTorrent_eq hmt]
    rcases tickTorrent_cases (w := ⟨m.toWorld, mt⟩) (hread mt hmt) with
      heq | ⟨hstate, hsteps | ⟨hdone, heq⟩⟩
    · obtain ⟨hlt, hget⟩ := List.getElem?_eq_some_iff.1 hmt
      rw [heq, ← hget, List.set_getElem_self]
      exact ⟨.refl, .refl _⟩
    · exact ⟨.single (.op hmt (.tick hstate hsteps)), hsteps.local.world⟩
    · rw [heq]
      exact ⟨.single (.op hmt (.complete hstate hdone)),
        (local_completeTorrent ⟨m.toWorld, mt⟩).world⟩

theorem getElem?_onTorrent_of_ne {f : Work → Work} {j : ℕ} (h : i ≠ j) :
    (m.onTorrent i f).torrents[j]? = m.torrents[j]? := by
  rw [onTorrent]
  split
  · rfl
  · exact List.getElem?_set_ne h

/-- Every torrent takes its part of a tick. -/
theorem stays_tickTorrents (hread : ∀ mt ∈ m.torrents, mt.ReadAfter m.toWorld now) :
    Stays m (m.tickTorrents now) := by
  rw [tickTorrents]
  have hnodup := List.nodup_range (n := m.torrents.length)
  replace hread : ∀ i ∈ List.range m.torrents.length, ∀ mt, m.torrents[i]? = some mt →
      mt.ReadAfter m.toWorld now := fun _ _ mt hmt => hread mt (List.mem_of_getElem? hmt)
  generalize List.range m.torrents.length = is at hnodup hread ⊢
  induction is generalizing m with
  | nil => exact .refl
  | cons i is ih =>
    rw [List.nodup_cons] at hnodup
    obtain ⟨hmoves, hextends⟩ := stays_tickTorrent i (hread i List.mem_cons_self)
    refine hmoves.trans (ih hnodup.2 fun j hj mt hmt => ?_)
    have hij : i ≠ j := fun heq => hnodup.1 (heq ▸ hj)
    rw [getElem?_onTorrent_of_ne hij] at hmt
    exact (hread j (List.mem_cons_of_mem _ hj) mt hmt).mono hextends

/-- Moves keep what is sound and the invariants of the torrents. -/
theorem Invariant.moves {P : World → ManagedTorrent → Prop} (hP : Invariant P)
    (hmoves : Moves m m') (hsound : m.Sound) (h : ∀ mt ∈ m.torrents, P m.toWorld mt) :
    m'.Sound ∧ ∀ mt ∈ m'.torrents, P m'.toWorld mt := by
  induction hmoves with
  | refl => exact ⟨hsound, h⟩
  | tail _ hmove ih => exact ⟨hmove.sound ih.1, hP.move hmove ih.1 ih.2⟩

theorem stays_torrentMgrTick (hsound : m.Sound) (htimed : ∀ mt ∈ m.torrents, mt.Timed m.toWorld) :
    Stays m m.torrentMgrTick.2 := by
  rw [torrentMgrTick]
  have hcollect : Stays m m.collectWebSeed.collectDiscovery.collectPeerConnections :=
    ((stays_foldl (fun _ _ => stays_collectWebSeedJob) _).trans
      (stays_foldl (fun _ _ => stays_collectDiscoveryJob) _)).trans
        (stays_foldl (fun _ _ => stays_collectPeerConnectJob) _)
  generalize m.collectWebSeed.collectDiscovery.collectPeerConnections = m₁ at hcollect
  have htimed' := (invariant_timed.moves hcollect.moves hsound htimed).2
  refine (hcollect.tail (.turn .query)).trans (stays_tickTorrents fun mt hmt => ?_)
  exact ⟨m₁.queries, Nat.lt_succ_self _, rfl, htimed' mt hmt⟩

/-! ## Events -/

/-- Every event but a removal leaves the torrents where they are. -/
theorem stays_step {event : Event} (hsound : m.Sound)
    (htimed : ∀ mt ∈ m.torrents, mt.Timed m.toWorld) (hevent : ∀ index, event ≠ .remove index) :
    Stays m (m.step event) := by
  cases event with
  | addRaw data savePath peerId =>
    rw [step]
    split
    case isTrue hlen => exact stays_addRaw hlen
    case isFalse => exact .refl
  | addMagnet infoHash name trackers uri savePath peerId =>
    refine stays_torrentMgrAdd ?_
    rw [ManagedTorrent.Accepted, if_pos (by exact rfl)]
    rfl
  | start index => exact stays_torrentMgrStart index
  | stop index => exact stays_torrentMgrStop index
  | remove index => exact absurd rfl (hevent index)
  | tick => exact stays_torrentMgrTick hsound htimed
  | webSeedDone slot net =>
    rw [step]
    rcases runWorker_cases WebSeedJob.done (fetchWebSeedPiece net) m.webSeedJobs with
      h | ⟨job, hslot, hdone, h⟩
    · rw [h]
    · rw [h]
      exact .single (.turn (.webSeedDone net hslot hdone))
  | peerConnectDone slot sock remoteId =>
    rw [step]
    rcases runWorker_cases PeerConnectJob.done (fun job => { job with sock, remoteId, done := true })
      m.peerConnectJobs with h | ⟨job, hslot, hdone, h⟩
    · rw [h]
    · rw [h]
      exact .single (.turn (.connectDone sock remoteId hslot hdone))
  | announce slot response => exact stays_announceNext response
  | discoveryDone slot =>
    rw [step]
    rcases runWorker_cases (fun job => job.done || job.urls ≠ []) DiscoveryJob.finished
      m.discoveryJobs with h | ⟨job, hslot, hdone, h⟩
    · rw [h]
    · rw [h]
      rw [Bool.or_eq_false_iff, decide_eq_false_iff_not, not_not] at hdone
      exact .single (.turn (.discoveryDone hslot hdone.1 hdone.2))

/-- Every event is a sequence of moves. -/
theorem moves_step (event : Event) (hsound : m.Sound)
    (htimed : ∀ mt ∈ m.torrents, mt.Timed m.toWorld) : Moves m (m.step event) := by
  by_cases hevent : ∃ index, event = .remove index
  · obtain ⟨index, rfl⟩ := hevent
    exact moves_torrentMgrRemove index
  · exact (stays_step hsound htimed (not_exists.1 hevent)).moves

/-- A run is a sequence of moves. -/
theorem moves_run (events : List Event) (hsound : m.Sound)
    (htimed : ∀ mt ∈ m.torrents, mt.Timed m.toWorld) : Moves m (m.run events) := by
  induction events generalizing m with
  | nil => exact .refl
  | cons event events ih =>
    have hstep := moves_step event hsound htimed
    obtain ⟨hsound', htimed'⟩ := invariant_timed.moves hstep hsound htimed
    exact hstep.trans (ih hsound' htimed')

theorem moves_init (sys : Sys) (strerror : Errno → Bytes) (env : ℕ → Outcome)
    (events : List Event) :
    Moves (TorrentMgr.init sys strerror env) ((TorrentMgr.init sys strerror env).run events) :=
  moves_run events (sound_init sys strerror env) fun _ hmt => nomatch hmt

/-! ## Reachable states -/

/-- What holds at first and is kept by every move holds in every reachable state. -/
theorem Reachable.induction {P : TorrentMgr → Prop} (hm : Reachable m)
    (hinit : ∀ sys strerror env, P (TorrentMgr.init sys strerror env))
    (hmove : ∀ {m m' : TorrentMgr}, m.Sound → Move m m' → P m → P m') : P m := by
  obtain ⟨sys, strerror, env, events, rfl⟩ := hm
  have hmoves := moves_init sys strerror env events
  generalize (TorrentMgr.init sys strerror env).run events = m at hmoves
  have hboth : m.Sound ∧ P m := by
    induction hmoves with
    | refl => exact ⟨sound_init sys strerror env, hinit sys strerror env⟩
    | tail _ hstep ih => exact ⟨hstep.sound ih.1, hmove ih.1 hstep ih.2⟩
  exact hboth.2

theorem TorrentMgr.Move.env (hmove : Move m m') (hsound : m.Sound) : m'.env = m.env := by
  cases hmove with
  | op hmt hop => exact (hop.confined (hsound.torrents _ (List.mem_of_getElem? hmt))).world.env
  | turn hturn => exact hturn.env_queries.1
  | add | remove => rfl

/-- The environment stays as it was at the start. -/
theorem env_run (sys : Sys) (strerror : Errno → Bytes) (env : ℕ → Outcome) (events : List Event) :
    ((TorrentMgr.init sys strerror env).run events).env = env := by
  have hmoves := moves_init sys strerror env events
  generalize (TorrentMgr.init sys strerror env).run events = m at hmoves
  have hboth : m.Sound ∧ m.env = env := by
    induction hmoves with
    | refl => exact ⟨sound_init sys strerror env, rfl⟩
    | tail _ hmove ih => exact ⟨hmove.sound ih.1, (hmove.env ih.1).trans ih.2⟩
  exact hboth.2

theorem sound_of_reachable (hm : Reachable m) : m.Sound :=
  hm.induction sound_init fun h hmove _ => hmove.sound h

/-- An invariant holds of every torrent in every reachable state. -/
theorem Invariant.reachable {P : World → ManagedTorrent → Prop} (hP : Invariant P)
    (hm : Reachable m) : ∀ mt ∈ m.torrents, P m.toWorld mt :=
  hm.induction (fun _ _ _ _ hmt => nomatch hmt) fun h hmove ih => hP.move hmove h ih

end PS5Torrent
