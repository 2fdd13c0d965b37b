import PS5Torrent.TorrentMgr.Holders

/-!
# While a torrent downloads

A torrent begins to download without a history (`ManagedTorrent.Fresh`). What
holds then, and is kept by what happens to a downloading torrent and its jobs
(`DownloadInvariant`), holds while it downloads.
-/

namespace PS5Torrent

open Relation Work TorrentMgr

/-- Nothing has happened to the torrent in its generation. -/
structure ManagedTorrent.Fresh (mt : ManagedTorrent) : Prop where
  peers : mt.peers = []
  activePeers : mt.activePeers = 0
  peerCandidates : mt.peerCandidates = []
  nextCandidate : mt.nextCandidate = 0
  trackerFailures : mt.trackerFailures = 0
  peerLog : mt.peerLog = []
  rounds : mt.rounds = []

variable {w w' : Work} {mt mt' : ManagedTorrent}

theorem ManagedTorrent.Fresh.opened (h : mt.Fresh) (hmt : mt.Opened mt') : mt'.Fresh := by
  rw [hmt]
  exact { h with }

theorem fresh_stopTorrent (w : Work) : (stopTorrent w).mt.Fresh := by
  obtain ⟨queries, bytes, releases, pm, -, heq⟩ := stopTorrent_eq w
  rw [heq]
  exact ⟨rfl, rfl, rfl, rfl, rfl, rfl, rfl⟩

theorem fresh_resetTorrent (h : ¬w.mt.Initialized → w.mt.Fresh) : (resetTorrent w).mt.Fresh := by
  rw [resetTorrent]
  split
  case isTrue => exact { fresh_stopTorrent w with }
  case isFalse hinit =>
    rw [Bool.or_eq_true] at hinit
    exact { h hinit with }

/-- A torrent that was not set up has no history. -/
theorem invariant_fresh : Invariant fun _ mt => ¬mt.Initialized → mt.Fresh where
  added hadded _ _ := by
    obtain ⟨t, savePath, isMagnet, magnetUri, peerId, rfl, -⟩ := hadded
    exact ⟨rfl, rfl, rfl, rfl, rfl, rfl, rfl⟩
  next h := h
  op {w w'} hop hsound h hinit' := by
    rcases hop.initialized_or hsound with hinit | rfl | rfl
    · exact absurd hinit hinit'
    · rcases startTorrent_cases w with ⟨heq, -⟩ | ⟨-, hopened⟩
      · rw [heq] at hinit' ⊢
        exact { h hinit' with }
      · exact (fresh_resetTorrent h).opened hopened.torrent
    · exact fresh_stopTorrent w
  others _ _ _ h := h
  turn _ _ _ h := h

/-- A property of a downloading torrent and the jobs, which a torrent without
    history has and which is kept while it downloads. -/
structure DownloadInvariant (P : World → ManagedTorrent → Prop) : Prop where
  fresh : ∀ {world : World} {mt : ManagedTorrent}, mt.Fresh → world.NoJobs mt.generation → P world mt
  next : ∀ {world : World} {mt : ManagedTorrent}, P world mt →
    P { world with nextGeneration := world.nextGeneration + 1 } mt
  reports : ∀ {world : World} {mt mt' : ManagedTorrent}, mt.Reports mt' → P world mt → P world mt'
  step : ∀ {w w' : Work}, Step w w' → w.mt.Ok w.webSeedJobs → w.mt.state = .downloading →
    w'.mt.state = .downloading → P w.toWorld w.mt → P w'.toWorld w'.mt
  candidates : ∀ {w : Work} {slot : ℕ} {job : DiscoveryJob}, w.mt.state = .downloading →
    w.discoveryJobs[slot]? = some (some job) → job.result.generation = w.mt.generation →
    P w.toWorld w.mt →
      P { w.toWorld with
        discoveryJobs := w.discoveryJobs.set slot (some { job with queue := [] }) }
        (job.queue.foldl (fun mt addr => addCandidate addr mt) w.mt)
  discovery : ∀ {w : Work} {slot : ℕ} {job : DiscoveryJob}, w.mt.state = .downloading →
    w.discoveryJobs[slot]? = some (some job) → job.result.generation = w.mt.generation →
    job.done → P w.toWorld w.mt →
      P { (applyDiscovery job.result w).toWorld with
        discoveryJobs := w.discoveryJobs.set slot none } (applyDiscovery job.result w).mt
  connection : ∀ {w : Work} {slot : ℕ} {job : PeerConnectJob}, w.mt.state = .downloading →
    w.peerConnectJobs[slot]? = some (some job) → job.generation = w.mt.generation →
    P w.toWorld w.mt →
      P { (applyConnection job w).toWorld with
        peerConnectJobs := (applyConnection job w).peerConnectJobs.set slot none }
        (applyConnection job w).mt
  webSeed : ∀ {w w' : Work} (jobs : List (Option WebSeedJob)), w.toWorld.Moved w'.toWorld →
    w.mt.Committed w'.mt → P w.toWorld w.mt → P { w'.toWorld with webSeedJobs := jobs } w'.mt
  others : ∀ {w w' : Work} {mt : ManagedTorrent}, w.Confined w' →
    mt.generation ≠ w.mt.generation → P w.toWorld mt → P w'.toWorld mt
  turn : ∀ {torrents : List ManagedTorrent} {world world' : World} {mt : ManagedTorrent},
    World.Turn torrents world world' → mt ∈ torrents → mt.state = .downloading → P world mt →
      P world' mt

namespace DownloadInvariant

variable {P : World → ManagedTorrent → Prop} (hP : DownloadInvariant P)

include hP

theorem steps (hsteps : Steps w w') (hok : w.mt.Ok w.webSeedJobs)
    (h : w.mt.state = .downloading → P w.toWorld w.mt) (hstate' : w'.mt.state = .downloading) :
    P w'.toWorld w'.mt := by
  induction hsteps with
  | refl => exact h hstate'
  | tail hfirst hstep ih =>
    have hstate := hstep.local.state hstate'
    exact hP.step hstep (Steps.ok hfirst hok) hstate hstate' (ih hstate)

theorem op (hop : Op w w') (hsound : w.Sound) (hfresh : ¬w.mt.Initialized → w.mt.Fresh)
    (h : w.mt.state = .downloading → P w.toWorld w.mt) (hstate' : w'.mt.state = .downloading) :
    P w'.toWorld w'.mt := by
  cases hop with
  | tick hstate hsteps => exact hP.steps hsteps hsound.ok h hstate'
  | complete => cases hstate'
  | start =>
    rcases startTorrent_cases w with ⟨heq, -⟩ | ⟨-, hopened⟩
    · rw [heq] at hstate' ⊢
      exact hP.reports rfl (h hstate')
    · exact hP.fresh ((fresh_resetTorrent hfresh).opened hopened.torrent)
        (hopened.noJobs hsound.jobs hsound.idle)
  | stop =>
    have hstopped := fresh_stopTorrent w
    exact hP.fresh hstopped ((renewed_stopTorrent w).noJobs hsound.jobs)
  | candidates hstate hslot hjob => exact hP.candidates hstate hslot hjob (h hstate)
  | discovery hstate hslot hjob hdone => exact hP.discovery hstate hslot hjob hdone (h hstate)
  | connection hstate hslot hjob => exact hP.connection hstate hslot hjob (h hstate)
  | webSeed hstate hslot hjob =>
    obtain ⟨first, hcommit⟩ := committing_collect hsound hstate hslot hjob
    exact hP.webSeed _ hcommit.world hcommit.torrent (h hstate)

theorem invariant : Invariant fun world mt =>
    (mt.state = .downloading → P world mt) ∧ (¬mt.Initialized → mt.Fresh) where
  added hadded hjobs := by
    refine ⟨fun hstate => ?_, invariant_fresh.added hadded hjobs⟩
    obtain ⟨t, savePath, isMagnet, magnetUri, peerId, rfl, -⟩ := hadded
    cases hstate
  next h := ⟨fun hstate => hP.next (h.1 hstate), h.2⟩
  op hop hsound h := ⟨hP.op hop hsound h.2 h.1, invariant_fresh.op hop hsound h.2⟩
  others hconfined hne _ h := ⟨fun hstate => hP.others hconfined hne (h.1 hstate), h.2⟩
  turn hturn hmt _ h := ⟨fun hstate => hP.turn hturn hmt hstate (h.1 hstate), h.2⟩

/-- The property holds of every downloading torrent in every reachable state. -/
theorem reachable {m : TorrentMgr} (hm : Reachable m) (hmt : mt ∈ m.torrents)
    (hstate : mt.state = .downloading) : P m.toWorld mt :=
  (hP.invariant.reachable hm mt hmt).1 hstate

end DownloadInvariant

end PS5Torrent
