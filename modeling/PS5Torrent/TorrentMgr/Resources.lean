import PS5Torrent.TorrentMgr.Assembly
import PS5Torrent.TorrentMgr.Connections

/-!
# The resources of a torrent that does not download

A torrent that does not download holds no connection, buffer or open file,
and no job is scheduled for it, unless work on a peer has stopped it with an
error (`resources_of_reachable`): that leaves the other peers connected and
goes on to schedule jobs. A start that cannot copy the save path leaves the
descriptor 0 (`exists_failedMgr`).
-/

namespace PS5Torrent

open Sha1 Relation Work TorrentMgr

/-- The descriptor is closed. The code takes each `fd >= 0` as an open file. -/
def FileWriter.Closed (fw : FileWriter) : Prop := fw.fd = .closed

instance (fw : FileWriter) : Decidable fw.Closed := inferInstanceAs (Decidable (fw.fd = .closed))

/-- The descriptor is closed, unless a start in the present generation could not
    copy the save path: `file_writer_init` then leaves the descriptor 0. -/
def ManagedTorrent.Shut (mt : ManagedTorrent) : Prop :=
  mt.strdupFailed = false → mt.fileWriter.Closed

/-- No peer of the torrent holds a connection, a buffer or a bitfield. -/
structure ManagedTorrent.Disconnected (mt : ManagedTorrent) : Prop where
  peers : ∀ p ∈ mt.peers, p.sock = none ∧ p.pieceData = none ∧ p.bitfield = none
  activePeers : mt.activePeers = 0

/-- The torrent holds nothing that a transfer needs. -/
structure ManagedTorrent.Released (mt : ManagedTorrent) : Prop extends mt.Disconnected where
  shut : mt.Shut

/-- The torrent downloads, or work on a peer has stopped it. -/
def Work.Live (w : Work) : Prop := w.mt.state = .downloading ∨ w.mt.generation ∈ w.failures

variable {w w' : Work} {mt mt' : ManagedTorrent}

/-! ## Live torrents -/

theorem live_disconnectPeer (i : ℕ) (h : w.Live) : (disconnectPeer i w).Live := by
  cases hp : w.mt.peers[i]? with
  | none =>
    rw [disconnectPeer_of_none hp]
    exact h
  | some p =>
    obtain ⟨queries, candidates, log, active, -, -, heq⟩ := disconnectPeer_eq' hp
    rw [heq]
    exact h

/-- A step leaves a torrent live. -/
theorem Work.Step.live (hstep : Step w w') (h : w.Live) : w'.Live := by
  cases hstep with
  | query | speed | takeCandidate | postpone | connect | peer | receive => exact h
  | claim | request | discovery | webSeed => exact h
  | report hmt =>
    rw [hmt]
    exact h
  | finish hstate hreceives hfull hhash hwrite =>
    obtain ⟨downloaded, heq⟩ := finishPiece_eq (getElem?_setPeer hreceives.peer _) hhash hwrite
    rw [heq]
    exact h
  | reject => exact live_disconnectPeer _ h
  | writeFailed => exact live_disconnectPeer _ (.inr List.mem_cons_self)
  | fail => exact .inr List.mem_cons_self
  | disconnect => exact live_disconnectPeer _ h

theorem Work.Steps.live (hsteps : Steps w w') (h : w.Live) : w'.Live := by
  induction hsteps with
  | refl => exact h
  | tail _ hstep ih => exact hstep.live ih

/-- Each job that was scheduled was for a torrent that downloads, or that work
    on a peer has stopped. -/
def World.ScheduledOk (world : World) : Prop :=
  ∀ job ∈ world.scheduled, job.state = .downloading ∨ job.generation ∈ world.failures

theorem World.ScheduledOk.mono {world world' : World} (h : world.ScheduledOk)
    (hscheduled : world'.scheduled = world.scheduled) (hfailures : world.failures <:+ world'.failures) :
    world'.ScheduledOk := by
  intro job hjob
  rw [hscheduled] at hjob
  exact (h job hjob).imp_right fun hmem => hfailures.subset hmem

/-- A live torrent may schedule a job. -/
theorem scheduledOk_schedule (hlive : w.Live) (h : w.ScheduledOk) : w.schedule.ScheduledOk := by
  intro job hjob
  rcases List.mem_cons.1 hjob with rfl | hjob
  · exact hlive
  · exact h job hjob

theorem scheduledOk_disconnectPeer (i : ℕ) (h : w.ScheduledOk) :
    (disconnectPeer i w).ScheduledOk := by
  cases hp : w.mt.peers[i]? with
  | none =>
    rw [disconnectPeer_of_none hp]
    exact h
  | some p =>
    obtain ⟨queries, candidates, log, active, -, -, heq⟩ := disconnectPeer_eq' hp
    rw [heq]
    exact h

theorem Work.Step.scheduledOk (hstep : Step w w') (hlive : w.Live) (h : w.ScheduledOk) :
    w'.ScheduledOk := by
  cases hstep with
  | query | speed | takeCandidate | postpone | report | peer | receive => exact h
  | claim | request => exact h
  | connect | webSeed => exact scheduledOk_schedule hlive h
  | discovery => exact scheduledOk_schedule (w := w.next) hlive h
  | finish hstate hreceives hfull hhash hwrite =>
    obtain ⟨downloaded, heq⟩ := finishPiece_eq (getElem?_setPeer hreceives.peer _) hhash hwrite
    rw [heq]
    exact h
  | reject => exact scheduledOk_disconnectPeer _ h
  | writeFailed =>
    exact scheduledOk_disconnectPeer _ (World.ScheduledOk.mono h rfl (List.suffix_cons _ _))
  | fail => exact h.mono rfl (List.suffix_cons _ _)
  | disconnect => exact scheduledOk_disconnectPeer _ h

theorem Work.Steps.scheduledOk (hsteps : Steps w w') (hlive : w.Live) (h : w.ScheduledOk) :
    w'.ScheduledOk := by
  induction hsteps with
  | refl => exact h
  | tail hfirst hstep ih => exact hstep.scheduledOk (Steps.live hfirst hlive) ih

/-! ## Files -/

/-- A writer that cannot be set up with a copy of its path has no file open. -/
theorem closed_of_fileWriterInit {strdupOk : Bool} {t : Torrent} {base : Bytes} {fw : FileWriter}
    {sys sys' : Sys} (hcopy : strdupOk = true)
    (h : fileWriterInit strdupOk t base sys = .error fw sys') : fw.Closed := by
  have hfail (e : Errno) (fw' : FileWriter)
      (h : (setErrno e >>= fun _ => throw fw' : EStateM FileWriter Sys FileWriter) sys =
        .error fw sys') : fw = fw' := by
    cases h
    rfl
  -- once the path is copied, the descriptor is set to -1 before anything else can fail
  rw [fileWriterInit, hcopy, if_neg (by simp)] at h
  dsimp only at h
  split at h
  · cases h
  split at h
  · rw [hfail _ _ h]
    rfl
  cases hfull : fullPath base (t.outputName.getD []) with
  | none =>
    rw [hfull] at h
    rw [hfail _ _ h]
    rfl
  | some full =>
    rw [hfull] at h
    let failed : FileWriter := ⟨none, some t, t.isMultiFile, .closed⟩
    change (EStateM.adaptExcept (fun _ => failed) (openFile full true) >>= fun fd =>
      pure (FileWriter.mk (some (cstr base)) (some t) t.isMultiFile fd)) sys = .error fw sys' at h
    cases hopen : openFile full true sys with
    | ok fd sys'' =>
      rw [Effect.bind_of_ok (Effect.adaptExcept_eq_ok.2 hopen)] at h
      cases h
    | error e sys'' =>
      have hadapt : EStateM.adaptExcept (fun _ => failed) (openFile full true) sys =
          .error failed sys'' := by rw [EStateM.adaptExcept, hopen]
      rw [Effect.bind_of_error hadapt] at h
      rw [← (EStateM.Result.error.inj h).1]
      rfl

/-- A start that does not begin a download leaves no file open. -/
theorem shut_openTorrent (h : w.mt.Shut) :
    (openTorrent w).2.mt.state = .downloading ∨ (openTorrent w).2.mt.Shut := by
  rw [openTorrent]
  split
  case isTrue => exact .inr h
  case isFalse =>
    dsimp only
    split
    case isTrue => exact .inr h
    case isFalse =>
      split
      case h_1 => exact .inl rfl
      case h_2 fw sys herror =>
        refine .inr fun hcopy => closed_of_fileWriterInit ?_ herror
        exact (Bool.not_eq_false' _).mp hcopy

theorem shut_resetTorrent (h : ¬w.mt.Initialized → w.mt.Shut) : (resetTorrent w).mt.Shut := by
  rw [resetTorrent]
  split
  case isTrue => exact fun _ => rfl
  case isFalse hinit =>
    rw [Bool.or_eq_true] at hinit
    exact h hinit

theorem shut_startTorrent (hstate : w.mt.state = .stopped ∨ w.mt.state = .error)
    (h : ¬w.mt.Initialized → w.mt.Shut) :
    (startTorrent w).2.mt.state = .downloading ∨ (startTorrent w).2.mt.Shut := by
  have hshut := shut_resetTorrent h
  have hnot : ¬(w.mt.state = .downloading ∨ w.mt.state = .seeding ∨ w.mt.state = .done) := by
    rcases hstate with hs | hs <;> rw [hs] <;> simp
  rw [startTorrent, if_neg hnot]
  dsimp only
  cases ensureDirectoryTree (resetTorrent w).mt.savePath (resetTorrent w).sys with
  | error e sys => exact .inr hshut
  | ok _ sys => exact shut_openTorrent (w := { resetTorrent w with sys := sys }) hshut

/-! ## Operations -/

/-- What a torrent holds while it does not download. -/
structure ManagedTorrent.Resting (world : World) (mt : ManagedTorrent) : Prop where
  shut : ¬mt.Initialized → mt.Shut
  released : mt.state ≠ .downloading → mt.generation ∉ world.failures → mt.Released

theorem released_stopTorrent (w : Work) : (stopTorrent w).mt.Released := by
  obtain ⟨queries, bytes, releases, pm, -, heq⟩ := stopTorrent_eq w
  rw [heq]
  refine ⟨⟨fun p hp => ?_, rfl⟩, fun _ => rfl⟩
  cases hp

/-- A download that is complete has released everything. -/
theorem released_completeTorrent (h : w.mt.Linked w.peerConnectJobs) :
    (completeTorrent w).mt.Released := by
  have hpeers : (completeTorrent w).mt.peers = w.mt.peers.map TorrentPeer.idle :=
    peers_disconnectPeers w
  have hlinked : (disconnectPeers w).mt.Linked (disconnectPeers w).peerConnectJobs := by
    rw [disconnectPeers]
    generalize List.range w.mt.peers.length = is
    clear hpeers
    induction is generalizing w with
    | nil => exact h
    | cons i is ih => exact ih (h.disconnectPeer i)
  have hopened : (disconnectPeers w).mt.links.opened = 0 := by
    rw [Links.opened, ManagedTorrent.links, List.countP_map, List.countP_eq_zero]
    intro p hp hsock
    rw [peers_disconnectPeers] at hp
    obtain ⟨q, -, rfl⟩ := List.mem_map.1 hp
    cases hsock
  refine ⟨⟨fun p hp => ?_, ?_⟩, fun _ => rfl⟩
  · rw [hpeers] at hp
    obtain ⟨q, -, rfl⟩ := List.mem_map.1 hp
    exact ⟨rfl, rfl, rfl⟩
  · have hactive := hlinked.active
    rw [hopened] at hactive
    exact hactive

/-- A start that does not begin a download holds nothing. -/
theorem released_startTorrent (hfresh : ¬w.mt.Initialized → w.mt.Fresh)
    (h : w.mt.Resting w.toWorld) :
    (startTorrent w).2.mt.state ≠ .downloading →
      (startTorrent w).2.mt.generation ∉ (startTorrent w).2.failures →
        (startTorrent w).2.mt.Released := by
  intro hstate' hgeneration
  rcases startTorrent_cases w with ⟨heq, -⟩ | ⟨hstate, hopened⟩
  · rw [heq] at hstate' hgeneration ⊢
    exact { h.released hstate' hgeneration with }
  · have hfresh' := (fresh_resetTorrent hfresh).opened hopened.torrent
    have hshut := (shut_startTorrent hstate h.shut).resolve_left hstate'
    refine ⟨⟨fun p hp => ?_, hfresh'.activePeers⟩, hshut⟩
    rw [hfresh'.peers] at hp
    cases hp

theorem Work.Op.released (hop : Op w w') (hsound : w.Sound)
    (hfresh : ¬w.mt.Initialized → w.mt.Fresh)
    (hlinked : w.mt.state = .downloading → w.mt.Linked w.peerConnectJobs)
    (h : w.mt.Resting w.toWorld) (hstate' : w'.mt.state ≠ .downloading)
    (hgeneration : w'.mt.generation ∉ w'.failures) : w'.mt.Released := by
  cases hop with
  | tick hstate hsteps =>
    rcases hsteps.live (.inl hstate) with hlive | hlive
    · exact absurd hlive hstate'
    · exact absurd hlive hgeneration
  | complete hstate => exact released_completeTorrent (hlinked hstate)
  | start => exact released_startTorrent hfresh h hstate' hgeneration
  | stop => exact released_stopTorrent w
  | @candidates slot job hstate =>
    refine absurd ?_ hstate'
    dsimp only
    rw [sameTransfer_addCandidates job.queue w.mt]
    exact hstate
  | @discovery slot job hstate =>
    refine absurd ?_ hstate'
    dsimp only [applyDiscovery, ManagedTorrent.logRound]
    rw [sameTransfer_discovered w.outcome.time job.result w.mt]
    exact hstate
  | @connection slot job hstate =>
    obtain ⟨queries, mt, -, heq, hsame | ⟨sock, remoteId, candidates, hadd⟩⟩ :=
      applyConnection_eq job w
    · rw [heq, hsame] at hstate'
      exact absurd hstate hstate'
    · obtain ⟨peers, active, rfl⟩ := addPeer_eq hadd
      rw [heq] at hstate'
      exact absurd hstate hstate'
  | webSeed hstate hslot hjob =>
    obtain ⟨first, hcommit⟩ := committing_collect hsound hstate hslot hjob
    exact absurd hcommit.state hstate'

/-- A torrent that does not download has released everything, unless work on a
    peer has stopped it. -/
theorem invariant_resting : Invariant fun world mt => mt.Resting world ∧
    (mt.state = .downloading → mt.Linked world.peerConnectJobs) ∧
    (¬mt.Initialized → mt.Fresh) where
  added hadded hjobs := by
    refine ⟨?_, downloadInvariant_linked.invariant.added hadded hjobs⟩
    obtain ⟨t, savePath, isMagnet, magnetUri, peerId, rfl, -⟩ := hadded
    refine ⟨fun _ _ => rfl, fun _ _ => ⟨⟨fun p hp => ?_, rfl⟩, fun _ => rfl⟩⟩
    cases hp
  next h := ⟨{ h.1 with }, h.2⟩
  op {w w'} hop hsound h := by
    obtain ⟨hresting, hlinked, hfresh⟩ := h
    refine ⟨⟨fun hinit' => ?_, hop.released hsound hfresh hlinked hresting⟩,
      downloadInvariant_linked.invariant.op hop hsound ⟨hlinked, hfresh⟩⟩
    rcases hop.initialized_or hsound with hinit | rfl | rfl
    · exact absurd hinit hinit'
    · rcases startTorrent_cases w with ⟨heq, -⟩ | ⟨hstate, -⟩
      · rw [heq] at hinit' ⊢
        exact hresting.shut hinit'
      · refine (shut_startTorrent hstate hresting.shut).resolve_left fun hstate' => hinit' ?_
        exact (hop.sound hsound).initialized hstate'
    · exact (released_stopTorrent w).shut
  others hconfined hne hlt h :=
    ⟨{ h.1 with
      released := fun hstate hgeneration => h.1.released hstate fun hmem =>
        hgeneration (hconfined.world.failures.subset hmem) },
      downloadInvariant_linked.invariant.others hconfined hne hlt h.2⟩
  turn hturn hmt hsound h := by
    refine ⟨?_, downloadInvariant_linked.invariant.turn hturn hmt hsound h.2⟩
    cases hturn <;> exact { h.1 with }

/-! ## Runs -/

theorem scheduledOk_disconnectPeers (h : w.ScheduledOk) : (disconnectPeers w).ScheduledOk := by
  rw [disconnectPeers]
  generalize List.range w.mt.peers.length = is
  induction is generalizing w with
  | nil => exact h
  | cons i is ih => exact ih (scheduledOk_disconnectPeer i h)

theorem scheduledOk_resetTorrent (h : w.ScheduledOk) : (resetTorrent w).ScheduledOk := by
  rw [resetTorrent]
  split
  case isTrue =>
    obtain ⟨queries, bytes, releases, pm, -, heq⟩ := stopTorrent_eq w
    rw [heq]
    exact h
  case isFalse => exact h

theorem World.Moved.scheduledOk {world world' : World} (h : world.Moved world')
    (hworld : world.ScheduledOk) : world'.ScheduledOk := by
  rw [h.eq]
  exact hworld

theorem Work.Op.scheduledOk (hop : Op w w') (hsound : w.Sound) (h : w.ScheduledOk) :
    w'.ScheduledOk := by
  cases hop with
  | tick hstate hsteps => exact hsteps.scheduledOk (.inl hstate) h
  | complete => exact scheduledOk_disconnectPeers h
  | start =>
    rcases startTorrent_cases w with ⟨heq, -⟩ | ⟨-, hopened⟩
    · rw [heq]
      exact h
    · exact hopened.world.scheduledOk (scheduledOk_resetTorrent h)
  | stop =>
    obtain ⟨queries, bytes, releases, pm, -, heq⟩ := stopTorrent_eq w
    rw [heq]
    exact h
  | candidates | discovery => exact h
  | @connection slot job =>
    obtain ⟨queries, mt, -, heq, -⟩ := applyConnection_eq job w
    rw [heq]
    exact h
  | webSeed hstate hslot hjob =>
    obtain ⟨first, hcommit⟩ := committing_collect hsound hstate hslot hjob
    have hcommitted := hcommit.world.scheduledOk h
    exact hcommitted

variable {m m' : TorrentMgr}

theorem TorrentMgr.Move.scheduledOk (hmove : Move m m') (hsound : m.Sound) (h : m.ScheduledOk) :
    m'.ScheduledOk := by
  cases hmove with
  | op hmt hop => exact hop.scheduledOk (hsound.torrents _ (List.mem_of_getElem? hmt)) h
  | turn hturn => cases hturn <;> exact h
  | add | remove => exact h

/-- In a generation in which no work on a peer has stopped the torrent with an
    error, a torrent that does not download has no connection, buffer or
    bitfield, no active peer and no share of the bytes in buffers, and no job is
    scheduled for it. Its descriptor is closed, unless a start in the generation
    could not copy the save path. -/
theorem resources_of_reachable (hm : Reachable m) :
    (∀ mt ∈ m.torrents, mt.state ≠ .downloading → mt.generation ∉ m.failures →
      mt.Disconnected ∧ bufferBytes mt.peers = 0 ∧
        (mt.strdupFailed = false → mt.fileWriter.Closed)) ∧
    ∀ job ∈ m.scheduled, job.generation ∉ m.failures → job.state = .downloading := by
  refine ⟨fun mt hmt hstate hgeneration => ?_, fun job hjob hgeneration => ?_⟩
  · have hreleased := (invariant_resting.reachable hm mt hmt).1.released hstate hgeneration
    have hbytes : bufferBytes mt.peers = 0 :=
      bufferBytes_eq_zero fun p hp => (hreleased.peers p hp).2.1
    exact ⟨hreleased.toDisconnected, hbytes, hreleased.shut⟩
  · have hscheduled : m.ScheduledOk :=
      hm.induction (fun _ _ _ job hjob => nomatch hjob) fun hsound hmove => hmove.scheduledOk hsound
    exact (hscheduled job hjob).resolve_right hgeneration

/-- A manager whose torrent was stopped while a peer was served. -/
def stoppedMgr : TorrentMgr :=
  (TorrentMgr.init (sysWith []) (fun _ => []) talkingEnv).run
    [.addRaw trackedTorrent (lit "/d") [], .start 0, .tick,
      .announce 7 (some ⟨false, 60, [⟨1, 2⟩]⟩), .tick, .peerConnectDone 0 (some 5) [], .tick,
      .stop 0]

theorem resources_of_reachable_stopped :
    (∃ mt ∈ stoppedMgr.torrents, mt.state = .stopped ∧ mt.Disconnected ∧ mt.fileWriter.Closed) ∧
      ∀ job ∈ stoppedMgr.scheduled, job.state = .downloading := by
  obtain ⟨hreleased, hscheduled⟩ := resources_of_reachable (m := stoppedMgr) ⟨_, _, _, _, rfl⟩
  have hstopped : ∃ mt ∈ stoppedMgr.torrents, mt.state = .stopped ∧
      mt.generation ∉ stoppedMgr.failures ∧ mt.strdupFailed = false := by decide +kernel
  have hfailures : ∀ job ∈ stoppedMgr.scheduled, job.generation ∉ stoppedMgr.failures := by
    decide +kernel
  obtain ⟨mt, hmt, hstate, hgeneration, hcopy⟩ := hstopped
  have hne : mt.state ≠ .downloading := by
    rw [hstate]
    exact TorrentState.noConfusion
  obtain ⟨hdisconnected, -, hclosed⟩ := hreleased mt hmt hne hgeneration
  exact ⟨⟨mt, hmt, hstate, hdisconnected, hclosed hcopy⟩,
    fun job hjob => hscheduled job hjob (hfailures job hjob)⟩

/-! ### A torrent that work on a peer has stopped -/

/-- A torrent with a piece of 70 MB. -/
def largeTorrent : Bytes :=
  lit "d8:announce8:http://t4:infod6:lengthi70000000e4:name1:n12:piece lengthi70000000e6:pieces20:aaaaaaaaaaaaaaaaaaaaee"

/-- A manager with a torrent whose piece is over the limit, and whose tracker
    knows six peers, of which one is connected. -/
def failedMgr : TorrentMgr :=
  (TorrentMgr.init (sysWith []) (fun _ => []) talkingEnv).run
    [.addRaw largeTorrent (lit "/d") [], .start 0, .tick,
      .announce 7 (some ⟨false, 60, [⟨1, 2⟩, ⟨2, 2⟩, ⟨3, 2⟩, ⟨4, 2⟩, ⟨5, 2⟩, ⟨6, 2⟩]⟩), .tick,
      .peerConnectDone 0 (some 5) [], .tick]

/-- An environment in which the copy of the save path fails. -/
def uncopiedEnv : ℕ → Outcome := fun k => ⟨1, k ≠ 2, .incomplete⟩

/-- A manager with a torrent whose start could not copy the save path. -/
def uncopiedMgr : TorrentMgr :=
  (TorrentMgr.init (sysWith []) (fun _ => []) uncopiedEnv).run
    [.addRaw trackedTorrent (lit "/d") [], .start 0]

/-- A torrent that work on a peer has stopped keeps its connection and its
    file, and a job is scheduled for it. A torrent whose start could not copy
    the save path has the descriptor 0. -/
theorem exists_failedMgr : Reachable failedMgr ∧
    (∃ mt ∈ failedMgr.torrents, mt.state = .error ∧ mt.activePeers = 1 ∧
      (∃ p ∈ mt.peers, p.sock.isSome ∧ p.bitfield.isSome) ∧ ¬mt.fileWriter.Closed) ∧
    (∃ job ∈ failedMgr.scheduled, job.state = .error) ∧
    Reachable uncopiedMgr ∧ uncopiedMgr.failures = [] ∧
    ∃ mt ∈ uncopiedMgr.torrents, mt.state = .error ∧ mt.torrent.isMultiFile = false ∧
      mt.fileWriter.fd = .zero := by
  refine ⟨⟨_, _, _, _, rfl⟩, ?_, ?_, ⟨_, _, _, _, rfl⟩, ?_, ?_⟩
  · decide +kernel
  · decide +kernel
  · decide +kernel
  · decide +kernel

end PS5Torrent
