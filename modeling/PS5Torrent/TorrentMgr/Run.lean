import PS5Torrent.TorrentMgr.Move
import PS5Torrent.TorrentMgr.Worker

/-!
# Invariants of runs

What moves keep: generations are distinct, jobs are of generations that have
been given out, and each torrent keeps its invariant (`Move.sound`). A further
property of a torrent is kept if its operations keep it and the others do not
touch it (`Invariant.move`).
-/

namespace PS5Torrent

open Sha1 Slots Relation Work TorrentMgr

/-! ## One operation -/

/-- What holds of a torrent and the jobs between two operations. -/
structure Work.Sound (w : Work) : Prop where
  below : w.mt.generation < w.nextGeneration
  jobs : w.JobsBelow
  idle : w.Idle
  ok : w.mt.Ok w.webSeedJobs

variable {w w' : Work} {slot : ℕ}

/-- A torrent that is downloading is set up. -/
theorem Work.Sound.initialized (h : w.Sound) (hstate : w.mt.state = .downloading) :
    w.mt.Initialized :=
  .inl (h.ok.pieces hstate)

theorem ManagedTorrent.SameTransfer.local {mt : ManagedTorrent} (h : w.mt.SameTransfer mt) :
    w.Local { w with mt := mt } := by
  rw [h]
  exact { Local.refl w with }

theorem local_applyConnection (job : PeerConnectJob) (w : Work) :
    w.Local (applyConnection job w) := by
  obtain ⟨queries, mt, hle, heq, hmt⟩ := applyConnection_eq job w
  rw [heq]
  have hlocal : w.Local { w with mt := mt } := by
    rcases hmt with hsame | ⟨sock, remoteId, candidates, hadd⟩
    · exact hsame.local
    · obtain ⟨peers, active, rfl⟩ := addPeer_eq hadd
      exact { Local.refl w with }
  exact { hlocal with world := { World.Extends.refl _ with queries := hle } }

theorem local_applyDiscovery (result : ManagedTorrent) (w : Work) :
    w.Local (applyDiscovery result w) := by
  have hlocal := ((sameTransfer_discovered w.outcome.time result w.mt).trans rfl :
    w.mt.SameTransfer (applyDiscovery result w).mt).local
  exact { hlocal with world := { World.Extends.refl _ with queries := Nat.le_succ _ } }

theorem peerConnectJobs_applyConnection (job : PeerConnectJob) (w : Work) :
    (applyConnection job w).peerConnectJobs = w.peerConnectJobs := by
  obtain ⟨queries, mt, -, heq, -⟩ := applyConnection_eq job w
  rw [heq]

/-- A batch of the torrent is in the hands of the torrent. -/
theorem committing_of_slot {job : WebSeedJob} (h : w.Sound) (hstate : w.mt.state = .downloading)
    (hslot : w.webSeedJobs[slot]? = some (some job)) (hjob : job.generation = w.mt.generation) :
    w.Committing (jobHolders w.mt.generation (w.webSeedJobs.set slot none)) job.firstPiece
      job.pieceSizes.length w where
  torrent := rfl
  world := .refl _
  pieces := rfl
  state := hstate
  fits := (h.ok.fits (h.ok.pieces hstate)).1
  counted := hstate ▸ h.ok.counted
  ledger := by
    have hheld : jobHolders w.mt.generation w.webSeedJobs =
        withRange (jobHolders w.mt.generation (w.webSeedJobs.set slot none)) job.firstPiece
          job.pieceSizes.length := by
      funext index
      rw [← hjob, jobHolders_erase hslot, withRange]
      exact congrArg _ (if_congr WebSeedJob.covers_iff rfl rfl)
    rw [← hheld]
    exact h.ok.ledger hstate

/-- A batch that is collected is saved as far as it can be. -/
theorem committing_collect {job : WebSeedJob} (h : w.Sound) (hstate : w.mt.state = .downloading)
    (hslot : w.webSeedJobs[slot]? = some (some job)) (hjob : job.generation = w.mt.generation) :
    ∃ first, w.Committing (jobHolders w.mt.generation (w.webSeedJobs.set slot none)) first 0
      (applyWebSeed job w) :=
  committing_applyWebSeed (committing_of_slot h hstate hslot hjob)
    (h.ok.geometry (h.ok.pieces hstate)) (h.ok.batches job (List.mem_of_getElem? hslot) hjob)

theorem Work.Committing.local {held : ℕ → ℕ} {first n : ℕ} (h : w.Committing held first n w')
    (hstate : w.mt.state = .downloading) : w.Local w' where
  world := h.world.extends
  generation := by rw [h.torrent]
  torrent := by rw [h.torrent]
  isMagnet := by rw [h.torrent]
  totalSize := by rw [h.torrent]
  state _ := hstate
  pieces := h.pieces
  fileWriter := by rw [h.torrent]
  nextGeneration := by rw [h.world.eq]
  discovery := by rw [h.world.eq]
  peerConnect := by rw [h.world.eq]
  webSeed := by rw [h.world.eq]

/-- A slot of the own generation may be overwritten. -/
theorem others_set_own {Job : Type} {key : Job → ℕ} {generation : ℕ} {jobs : List (Option Job)}
    {job : Job} {entry : Option Job} (hslot : jobs[slot]? = some (some job))
    (hjob : key job = generation) (hentry : ∀ job', entry = some job' → key job' = generation) :
    others key generation (jobs.set slot entry) = others key generation jobs := by
  refine others_set (fun a ha => ?_) hentry
  rw [hslot] at ha
  rw [← Option.some.inj (Option.some.inj ha), hjob]

namespace Work.Op

/-- An operation is confined to its torrent. -/
theorem confined (hop : Op w w') (h : w.Sound) : w.Confined w' := by
  cases hop with
  | tick hstate hsteps => exact hsteps.local.confined
  | complete => exact (local_completeTorrent w).confined
  | start => exact confined_startTorrent h.below
  | stop => exact (renewed_stopTorrent w).confined h.below
  | @candidates slot job hstate hslot hjob =>
    have hlocal := (sameTransfer_addCandidates job.queue w.mt).local
    have hothers : others (·.result.generation) w.mt.generation
        (w.discoveryJobs.set slot (some { job with queue := [] })) =
        others (·.result.generation) w.mt.generation w.discoveryJobs :=
      others_set_own hslot hjob fun job' hjob' => Option.some.inj hjob' ▸ hjob
    exact { hlocal.confined with world := { hlocal.world with }, discovery := hothers }
  | @discovery slot job hstate hslot hjob =>
    have hlocal := local_applyDiscovery job.result w
    have hothers : others (·.result.generation) w.mt.generation (w.discoveryJobs.set slot none) =
        others (·.result.generation) w.mt.generation w.discoveryJobs :=
      others_set_own hslot hjob fun _ h => nomatch h
    exact { hlocal.confined with world := { hlocal.world with }, discovery := hothers }
  | @connection slot job hstate hslot hjob =>
    have hlocal := local_applyConnection job w
    have hothers : others PeerConnectJob.generation w.mt.generation
        ((applyConnection job w).peerConnectJobs.set slot none) =
        others PeerConnectJob.generation w.mt.generation w.peerConnectJobs := by
      rw [peerConnectJobs_applyConnection]
      exact others_set_own hslot hjob fun _ h => nomatch h
    exact { hlocal.confined with world := { hlocal.world with }, peerConnect := hothers }
  | @webSeed slot job hstate hslot hjob =>
    obtain ⟨first, hcommit⟩ := committing_collect h hstate hslot hjob
    have hlocal := hcommit.local hstate
    have hothers : others WebSeedJob.generation w.mt.generation
        ((applyWebSeed job w).webSeedJobs.set slot none) =
        others WebSeedJob.generation w.mt.generation w.webSeedJobs := by
      rw [hcommit.world.sameJobs.webSeedJobs]
      exact others_set_own hslot hjob fun _ h => nomatch h
    exact { hlocal.confined with world := { hlocal.world with }, webSeed := hothers }

/-- An operation keeps the invariant of its torrent. -/
theorem ok (hop : Op w w') (h : w.Sound) : w'.mt.Ok w'.webSeedJobs := by
  cases hop with
  | tick hstate hsteps => exact hsteps.ok h.ok
  | complete hstate hdone => exact ok_completeTorrent h.ok hstate hdone
  | start => exact ok_startTorrent h.ok h.jobs h.idle
  | stop => exact (stopped_stopTorrent h.ok h.jobs).ok
  | @candidates slot job => exact h.ok.sameTransfer (sameTransfer_addCandidates job.queue w.mt)
  | @discovery slot job => exact ok_applyDiscovery job.result h.ok
  | @connection slot job => exact ok_applyConnection job h.ok
  | webSeed hstate hslot hjob =>
    obtain ⟨first, hcommit⟩ := committing_collect h hstate hslot hjob
    exact hcommit.ok h.ok hstate

/-- Only a start or a stop leaves a torrent that is not set up. -/
theorem initialized_or (hop : Op w w') (h : w.Sound) :
    w'.mt.Initialized ∨ w' = (startTorrent w).2 ∨ w' = stopTorrent w := by
  have hconfined := hop.confined h
  cases hop with
  | tick hstate hsteps => exact .inl (hsteps.local.initialized (h.initialized hstate))
  | complete hstate => exact .inl ((local_completeTorrent w).initialized (h.initialized hstate))
  | start => exact .inr (.inl rfl)
  | stop => exact .inr (.inr rfl)
  | @candidates slot job hstate hslot hjob =>
    have hgen : (job.queue.foldl (fun mt addr => addCandidate addr mt) w.mt).generation =
        w.mt.generation := by rw [sameTransfer_addCandidates job.queue w.mt]
    exact .inl (hconfined.continues hgen (h.initialized hstate)).1
  | @discovery slot job hstate =>
    have hgen := (local_applyDiscovery job.result w).generation
    exact .inl (hconfined.continues hgen (h.initialized hstate)).1
  | @connection slot job hstate =>
    have hgen := (local_applyConnection job w).generation
    exact .inl (hconfined.continues hgen (h.initialized hstate)).1
  | webSeed hstate hslot hjob =>
    obtain ⟨first, hcommit⟩ := committing_collect h hstate hslot hjob
    have hgen := (hcommit.local hstate).generation
    exact .inl (hconfined.continues hgen (h.initialized hstate)).1

/-- An operation leaves nothing behind. -/
theorem idle (hop : Op w w') (h : w.Sound) : w'.Idle := by
  rcases hop.initialized_or h with hinit | rfl | rfl
  · exact fun hnot => absurd hinit hnot
  · exact idle_startTorrent h.jobs h.idle
  · exact idle_stopTorrent h.jobs

end Work.Op

/-- Jobs stay below the next generation. -/
theorem Work.Confined.jobsBelow (h : w.Confined w') (hbelow : w.mt.generation < w.nextGeneration)
    (hjobs : w.JobsBelow) : w'.JobsBelow := by
  have hle : w.nextGeneration ≤ w'.nextGeneration := by
    rcases h.generation with ⟨-, h⟩ | ⟨-, h⟩
    · exact h.ge
    · exact h ▸ Nat.le_succ _
  refine ⟨fun a ha => ?_, fun job hjob => ?_, fun job hjob => ?_, fun job hjob => ?_⟩
  · rw [h.world.announces] at ha
    exact (hjobs.announces a ha).trans_le hle
  · by_cases hgen : job.result.generation = w.mt.generation
    · exact hgen ▸ hbelow.trans_le hle
    · have hmem := h.discovery ▸ mem_others.2 ⟨hjob, hgen⟩
      exact (hjobs.discovery job (mem_others.1 hmem).1).trans_le hle
  · by_cases hgen : job.generation = w.mt.generation
    · exact hgen ▸ hbelow.trans_le hle
    · have hmem := h.peerConnect ▸ mem_others.2 ⟨hjob, hgen⟩
      exact (hjobs.peerConnect job (mem_others.1 hmem).1).trans_le hle
  · by_cases hgen : job.generation = w.mt.generation
    · exact hgen ▸ hbelow.trans_le hle
    · have hmem := h.webSeed ▸ mem_others.2 ⟨hjob, hgen⟩
      exact (hjobs.webSeed job (mem_others.1 hmem).1).trans_le hle

theorem Work.Op.sound (hop : Op w w') (h : w.Sound) : w'.Sound where
  below := by
    have hbelow := h.below
    rcases (hop.confined h).generation with ⟨hgen, hnext⟩ | ⟨hgen, hnext⟩
    · rw [hgen, hnext]
      exact hbelow
    · rw [hgen, hnext]
      exact Nat.lt_succ_self _
  jobs := (hop.confined h).jobsBelow h.below h.jobs
  idle := hop.idle h
  ok := hop.ok h

/-! ## A turn of the jobs -/

variable {world world' : World} {torrents : List ManagedTorrent} {mt : ManagedTorrent}

/-- The jobs are of generations that had jobs before. -/
structure World.Inherits (world world' : World) : Prop where
  nextGeneration : world'.nextGeneration = world.nextGeneration
  announces : ∀ a ∈ world'.announces, a ∈ world.announces ∨
    ∃ job, some job ∈ world.discoveryJobs ∧ job.result.generation = a.generation
  discovery : ∀ job', some job' ∈ world'.discoveryJobs →
    ∃ job, some job ∈ world.discoveryJobs ∧ job.result.generation = job'.result.generation
  peerConnect : ∀ job', some job' ∈ world'.peerConnectJobs →
    ∃ job, some job ∈ world.peerConnectJobs ∧ job.generation = job'.generation
  webSeed : ∀ job', some job' ∈ world'.webSeedJobs →
    ∃ job, some job ∈ world.webSeedJobs ∧ job.generation = job'.generation

theorem World.Inherits.refl (world : World) : world.Inherits world where
  nextGeneration := rfl
  announces _ h := .inl h
  discovery job' h := ⟨job', h, rfl⟩
  peerConnect job' h := ⟨job', h, rfl⟩
  webSeed job' h := ⟨job', h, rfl⟩

/-- An entry that is overwritten has the key of the old one. -/
theorem exists_of_mem_set {Job : Type} (key : Job → ℕ) {jobs : List (Option Job)} {job job' : Job}
    {entry : Option Job} (hslot : jobs[slot]? = some (some job))
    (hentry : ∀ job', entry = some job' → key job' = key job) (hmem : some job' ∈ jobs.set slot entry) :
    ∃ job, some job ∈ jobs ∧ key job = key job' := by
  rcases List.mem_or_eq_of_mem_set hmem with h | h
  · exact ⟨job', h, rfl⟩
  · exact ⟨job, List.mem_of_getElem? hslot, (hentry job' h.symm).symm⟩

theorem generation_answered (job : DiscoveryJob) (response : Option TrackerResponse) :
    (job.answered response).result.generation = job.result.generation := by
  cases response with
  | none => rfl
  | some r =>
    simp only [DiscoveryJob.answered]
    split
    · rfl
    · rfl

theorem generation_finished (job : DiscoveryJob) :
    job.finished.result.generation = job.result.generation := by
  rw [DiscoveryJob.finished]
  dsimp only
  split
  · rfl
  · rfl

theorem World.Turn.inherits (h : World.Turn torrents world world') : world.Inherits world' := by
  cases h with
  | query => exact { World.Inherits.refl world with }
  | webSeedDone net hslot | dropWebSeed hslot =>
    refine { World.Inherits.refl world with
      webSeed := fun job' => exists_of_mem_set WebSeedJob.generation hslot ?_ }
    rintro job' h
    first | cases h; rfl | cases h
  | connectDone sock remoteId hslot | dropConnection hslot =>
    refine { World.Inherits.refl world with
      peerConnect := fun job' => exists_of_mem_set PeerConnectJob.generation hslot ?_ }
    rintro job' h
    first | cases h; rfl | cases h
  | skip hslot | dropCandidates hslot | dropDiscovery hslot =>
    refine { World.Inherits.refl world with
      discovery := fun job' =>
        exists_of_mem_set (·.result.generation) hslot ?_ }
    rintro job' h
    first | cases h; rfl | cases h
  | announce response hslot =>
    refine { World.Inherits.refl world with
      announces := fun a ha => (List.mem_cons.1 ha).symm.imp_right fun h =>
        ⟨_, List.mem_of_getElem? hslot, by rw [h]⟩
      discovery := fun job' =>
        exists_of_mem_set (·.result.generation) hslot ?_ }
    rintro job' h
    rw [← Option.some.inj h]
    exact generation_answered _ response
  | discoveryDone hslot =>
    refine { World.Inherits.refl world with
      discovery := fun job' =>
        exists_of_mem_set (·.result.generation) hslot ?_ }
    rintro job' h
    rw [← Option.some.inj h]
    exact generation_finished _

/-- A generation without jobs gets none. -/
theorem World.Inherits.noJobs {generation : ℕ} (h : world.Inherits world')
    (hnone : world.NoJobs generation) : world'.NoJobs generation where
  announces a ha := by
    rcases h.announces a ha with ha | ⟨job, hjob, hgen⟩
    · exact hnone.announces a ha
    · exact hgen ▸ hnone.discovery job hjob
  discovery job' hjob' := by
    obtain ⟨job, hjob, hgen⟩ := h.discovery job' hjob'
    exact hgen ▸ hnone.discovery job hjob
  peerConnect job' hjob' := by
    obtain ⟨job, hjob, hgen⟩ := h.peerConnect job' hjob'
    exact hgen ▸ hnone.peerConnect job hjob
  webSeed job' hjob' := by
    obtain ⟨job, hjob, hgen⟩ := h.webSeed job' hjob'
    exact hgen ▸ hnone.webSeed job hjob

theorem World.Inherits.jobsBelow (h : world.Inherits world') (hjobs : world.JobsBelow) :
    world'.JobsBelow where
  announces a ha := by
    rw [h.nextGeneration]
    rcases h.announces a ha with ha | ⟨job, hjob, hgen⟩
    · exact hjobs.announces a ha
    · exact hgen ▸ hjobs.discovery job hjob
  discovery job' hjob' := by
    obtain ⟨job, hjob, hgen⟩ := h.discovery job' hjob'
    rw [← hgen, h.nextGeneration]
    exact hjobs.discovery job hjob
  peerConnect job' hjob' := by
    obtain ⟨job, hjob, hgen⟩ := h.peerConnect job' hjob'
    rw [← hgen, h.nextGeneration]
    exact hjobs.peerConnect job hjob
  webSeed job' hjob' := by
    obtain ⟨job, hjob, hgen⟩ := h.webSeed job' hjob'
    rw [← hgen, h.nextGeneration]
    exact hjobs.webSeed job hjob

/-- A torrent that has batches has pieces. -/
theorem ManagedTorrent.Ok.geometry_of_batch {jobs : List (Option WebSeedJob)} {job : WebSeedJob}
    (h : mt.Ok jobs) (hjob : job.Ok mt.torrent) : mt.torrent.Geometry := by
  have hpos := List.length_pos_iff.2 hjob.nonempty
  have hlt := hjob.isBatch.lt_numPieces le_rfl (by omega)
  have haccepted := h.accepted
  rw [ManagedTorrent.Accepted] at haccepted
  split at haccepted
  · omega
  · obtain ⟨data, -, hparse⟩ := haccepted
    exact geometry_of_torrentParse hparse

/-- A worker changes its batch in no way that its torrent relies on. -/
theorem ManagedTorrent.Ok.worker {jobs : List (Option WebSeedJob)} {job job' : WebSeedJob}
    (h : mt.Ok jobs) (hslot : jobs[slot]? = some (some job)) (hgen : job'.generation = job.generation)
    (hcovers : job'.covers = job.covers)
    (hok : job.Ok mt.torrent → mt.torrent.Geometry → job'.Ok mt.torrent) :
    mt.Ok (jobs.set slot (some job')) := by
  have hheld : jobHolders mt.generation (jobs.set slot (some job')) =
      jobHolders mt.generation jobs := by
    funext index
    have hcount := countP_set_add (p := fun slot : Option WebSeedJob => slot.any fun job =>
      job.generation = mt.generation && job.covers index) (y := some job') hslot
    rw [Option.any_some, Option.any_some, hgen, hcovers] at hcount
    exact Nat.add_right_cancel hcount
  exact { h with
    batches := fun job₁ hjob₁ hgen₁ => by
      rcases List.mem_or_eq_of_mem_set hjob₁ with hmem | heq
      · exact h.batches job₁ hmem hgen₁
      · obtain rfl := Option.some.inj heq
        have hjob := h.batches job (List.mem_of_getElem? hslot) (hgen ▸ hgen₁)
        exact hok hjob (h.geometry_of_batch hjob)
    ledger := fun hd => hheld.symm ▸ h.ledger hd }

/-- A batch that is dropped is not one of the torrent, or the torrent is not downloading. -/
theorem ManagedTorrent.Ok.drop {jobs : List (Option WebSeedJob)} {job : WebSeedJob} (h : mt.Ok jobs)
    (hslot : jobs[slot]? = some (some job))
    (hdead : mt.generation = job.generation → mt.state ≠ .downloading) :
    mt.Ok (jobs.set slot none) := by
  by_cases hgen : mt.generation = job.generation
  · exact { h with
      batches := fun job₁ hjob₁ hgen₁ => by
        rcases List.mem_or_eq_of_mem_set hjob₁ with hmem | heq
        · exact h.batches job₁ hmem hgen₁
        · cases heq
      ledger := fun hd => absurd hd (hdead hgen) }
  · exact h.of_others hgen (others_set_own hslot rfl fun _ h => nomatch h)

theorem World.Turn.ok (h : World.Turn torrents world world') (hmt : mt ∈ torrents)
    (hok : mt.Ok world.webSeedJobs) : mt.Ok world'.webSeedJobs := by
  cases h with
  | webSeedDone net hslot => exact hok.worker hslot rfl rfl fun hjob hg => hjob.fetch hg
  | dropWebSeed hslot hdone hdead => exact hok.drop hslot (hdead mt hmt)
  | query | connectDone | skip | announce | discoveryDone => exact hok
  | dropCandidates | dropDiscovery | dropConnection => exact hok

theorem World.Turn.sound (h : World.Turn torrents world world') (hmt : mt ∈ torrents)
    (hsound : Sound ⟨world, mt⟩) : Sound ⟨world', mt⟩ where
  below := hsound.below.trans_le h.inherits.nextGeneration.ge
  jobs := h.inherits.jobsBelow hsound.jobs
  idle hinit := ⟨(hsound.idle hinit).1, h.inherits.noJobs (hsound.idle hinit).2⟩
  ok := h.ok hmt hsound.ok

/-! ## Other torrents -/

/-- A torrent keeps its invariant when another one is operated on. -/
theorem Work.Confined.sound (h : w.Confined w') (hsound : Sound ⟨w.toWorld, mt⟩)
    (hne : mt.generation ≠ w.mt.generation) (hbelow : w.mt.generation < w.nextGeneration) :
    Sound ⟨w'.toWorld, mt⟩ where
  below := by
    refine lt_of_lt_of_le hsound.below ?_
    rcases h.generation with ⟨-, h⟩ | ⟨-, h⟩
    · exact h.ge
    · exact h ▸ Nat.le_succ _
  jobs := h.jobsBelow hbelow hsound.jobs
  idle hinit := by
    obtain ⟨hpeers, hnone⟩ := hsound.idle hinit
    refine ⟨hpeers, fun a ha => ?_, fun job hjob hgen => ?_, fun job hjob hgen => ?_,
      fun job hjob hgen => ?_⟩
    · exact hnone.announces a (h.world.announces ▸ ha)
    · have hmem := h.discovery ▸ mem_others.2 ⟨hjob, hgen.symm ▸ hne⟩
      exact hnone.discovery job (mem_others.1 hmem).1 hgen
    · have hmem := h.peerConnect ▸ mem_others.2 ⟨hjob, hgen.symm ▸ hne⟩
      exact hnone.peerConnect job (mem_others.1 hmem).1 hgen
    · have hmem := h.webSeed ▸ mem_others.2 ⟨hjob, hgen.symm ▸ hne⟩
      exact hnone.webSeed job (mem_others.1 hmem).1 hgen
  ok := hsound.ok.of_others hne h.webSeed

/-! ## Runs -/

/-- What holds of the manager between two calls. -/
structure TorrentMgr.Sound (m : TorrentMgr) : Prop where
  nodup : (m.torrents.map ManagedTorrent.generation).Nodup
  jobs : m.JobsBelow
  torrents : ∀ mt ∈ m.torrents, Work.Sound ⟨m.toWorld, mt⟩

/-- A torrent that is added has no history. -/
theorem ManagedTorrent.IsAdded.sound (h : mt.IsAdded world.nextGeneration)
    (hjobs : world.JobsBelow) :
    Work.Sound ⟨{ world with nextGeneration := world.nextGeneration + 1 }, mt⟩ := by
  obtain ⟨t, savePath, isMagnet, magnetUri, peerId, rfl, haccepted⟩ := h
  refine ⟨Nat.lt_succ_self _, ⟨fun a ha => Nat.lt_succ_of_lt (hjobs.announces a ha),
      fun job hjob => ?_, fun job hjob => ?_, fun job hjob => ?_⟩,
    fun _ => ⟨rfl, { hjobs.noJobs with }⟩, haccepted, rfl, fun hpieces => ?_,
    .empty (fun i hi => nomatch hi) rfl (fun i => hasBit_replicate 0 i) TorrentState.noConfusion
      TorrentState.noConfusion, fun job hjob hgen => ?_, TorrentState.noConfusion,
    TorrentState.noConfusion⟩
  · exact Nat.lt_succ_of_lt (hjobs.discovery job hjob)
  · exact Nat.lt_succ_of_lt (hjobs.peerConnect job hjob)
  · exact Nat.lt_succ_of_lt (hjobs.webSeed job hjob)
  · exact absurd hpieces Bool.false_ne_true
  · exact absurd hgen (hjobs.webSeed job hjob).ne

theorem Work.Sound.next (h : Work.Sound ⟨world, mt⟩) :
    Work.Sound ⟨{ world with nextGeneration := world.nextGeneration + 1 }, mt⟩ where
  below := Nat.lt_succ_of_lt h.below
  jobs :=
    ⟨fun a ha => Nat.lt_succ_of_lt (h.jobs.announces a ha),
      fun job hjob => Nat.lt_succ_of_lt (h.jobs.discovery job hjob),
      fun job hjob => Nat.lt_succ_of_lt (h.jobs.peerConnect job hjob),
      fun job hjob => Nat.lt_succ_of_lt (h.jobs.webSeed job hjob)⟩
  idle hinit := ⟨(h.idle hinit).1, { (h.idle hinit).2 with }⟩
  ok := h.ok

variable {m m' : TorrentMgr}

/-- Two torrents have different generations. -/
theorem TorrentMgr.Sound.generation_ne (h : m.Sound) {i j : ℕ} {mt' : ManagedTorrent}
    (hi : m.torrents[i]? = some mt) (hj : m.torrents[j]? = some mt') (hne : i ≠ j) :
    mt.generation ≠ mt'.generation := by
  intro hgen
  have hi' : (m.torrents.map ManagedTorrent.generation)[i]? = some mt.generation := by
    rw [List.getElem?_map, hi, Option.map_some]
  have hj' : (m.torrents.map ManagedTorrent.generation)[j]? = some mt.generation := by
    rw [List.getElem?_map, hj, Option.map_some, hgen]
  exact hne ((List.getElem?_inj (List.getElem?_eq_some_iff.1 hi').1 h.nodup).1 (hi'.trans hj'.symm))

theorem TorrentMgr.Move.sound (hmove : Move m m') (h : m.Sound) : m'.Sound := by
  cases hmove with
  | @op i mt w hmt hop =>
    have hsound := h.torrents mt (List.mem_of_getElem? hmt)
    have hconfined := hop.confined hsound
    refine ⟨?_, hconfined.jobsBelow hsound.below hsound.jobs, fun mt' hmt' => ?_⟩
    · rw [List.map_set]
      rcases hconfined.generation with ⟨hgen, -⟩ | ⟨hgen, -⟩
      · have hget : (m.torrents.map ManagedTorrent.generation)[i]? = some mt.generation := by
          rw [List.getElem?_map, hmt, Option.map_some]
        obtain ⟨hlt, hget⟩ := List.getElem?_eq_some_iff.1 hget
        rw [hgen, ← hget, List.set_getElem_self]
        exact h.nodup
      · refine h.nodup.set ?_
        rw [hgen, List.mem_map]
        rintro ⟨mt', hmt', hgen'⟩
        exact (h.torrents mt' hmt').below.ne hgen'
    · obtain ⟨j, hj⟩ := List.mem_iff_getElem?.1 hmt'
      rw [List.getElem?_set] at hj
      split at hj
      case isTrue hij =>
        split at hj
        · rw [← Option.some.inj hj]
          exact hop.sound hsound
        · cases hj
      case isFalse hij =>
        exact hconfined.sound (h.torrents mt' (List.mem_of_getElem? hj))
          (h.generation_ne hj hmt (Ne.symm hij)) hsound.below
  | turn hturn =>
    exact ⟨h.nodup, hturn.inherits.jobsBelow h.jobs, fun mt hmt => hturn.sound hmt (h.torrents mt hmt)⟩
  | @add mt hadded hroom =>
    have hnew := hadded.sound h.jobs
    have hgen : mt.generation = m.nextGeneration := by
      obtain ⟨_, _, _, _, _, rfl, -⟩ := hadded
      rfl
    refine ⟨?_, hnew.jobs, fun mt' hmt' => ?_⟩
    · rw [List.map_append, List.map_singleton, hgen]
      refine List.nodup_append.2 ⟨h.nodup, List.nodup_singleton _, fun g hg g' hg' => ?_⟩
      obtain ⟨mt', hmt', rfl⟩ := List.mem_map.1 hg
      rw [List.mem_singleton.1 hg']
      exact (h.torrents mt' hmt').below.ne
    · rcases List.mem_append.1 hmt' with hmem | hmem
      · exact (h.torrents mt' hmem).next
      · rw [List.mem_singleton.1 hmem]
        exact hnew
  | @remove i mt hmt =>
    refine ⟨?_, h.jobs, fun mt' hmt' => h.torrents mt' (List.mem_of_mem_eraseIdx hmt')⟩
    exact h.nodup.sublist ((List.eraseIdx_sublist _ _).map _)

theorem sound_init (sys : Sys) (strerror : Errno → Bytes) (env : ℕ → Outcome) :
    (TorrentMgr.init sys strerror env).Sound where
  nodup := List.nodup_nil
  jobs := by
    refine ⟨fun a ha => (nomatch ha), ?_, ?_, ?_⟩
    all_goals
      intro job hjob
      cases (List.mem_replicate.1 hjob).2
  torrents mt hmt := by cases hmt

theorem World.Turn.env_queries {torrents : List ManagedTorrent} {world world' : World}
    (h : World.Turn torrents world world') :
    world'.env = world.env ∧ world.queries ≤ world'.queries := by
  cases h with
  | query | announce => exact ⟨rfl, Nat.le_succ _⟩
  | webSeedDone | connectDone | skip | discoveryDone | dropCandidates => exact ⟨rfl, le_rfl⟩
  | dropDiscovery | dropConnection | dropWebSeed => exact ⟨rfl, le_rfl⟩

/-! ## Invariants of a torrent -/

/-- A property of a torrent, and of what it shares with the others, that every move keeps. -/
structure Invariant (P : World → ManagedTorrent → Prop) : Prop where
  added : ∀ {world : World} {mt : ManagedTorrent}, mt.IsAdded world.nextGeneration →
    world.JobsBelow → P world mt
  next : ∀ {world : World} {mt : ManagedTorrent}, P world mt →
    P { world with nextGeneration := world.nextGeneration + 1 } mt
  op : ∀ {w w' : Work}, Op w w' → w.Sound → P w.toWorld w.mt → P w'.toWorld w'.mt
  others : ∀ {w w' : Work} {mt : ManagedTorrent}, w.Confined w' →
    mt.generation ≠ w.mt.generation → mt.generation < w.nextGeneration → P w.toWorld mt →
      P w'.toWorld mt
  turn : ∀ {torrents : List ManagedTorrent} {world world' : World} {mt : ManagedTorrent},
    World.Turn torrents world world' → mt ∈ torrents → Work.Sound ⟨world, mt⟩ → P world mt →
      P world' mt

theorem Invariant.move {P : World → ManagedTorrent → Prop} (hP : Invariant P) (hmove : Move m m')
    (h : m.Sound) (hm : ∀ mt ∈ m.torrents, P m.toWorld mt) : ∀ mt ∈ m'.torrents, P m'.toWorld mt := by
  intro mt' hmt'
  cases hmove with
  | @op i mt w hmt hop =>
    have hmem := List.mem_of_getElem? hmt
    have hsound := h.torrents mt hmem
    obtain ⟨j, hj⟩ := List.mem_iff_getElem?.1 hmt'
    rw [List.getElem?_set] at hj
    split at hj
    case isTrue hij =>
      split at hj
      · rw [← Option.some.inj hj]
        exact hP.op hop hsound (hm mt hmem)
      · cases hj
    case isFalse hij =>
      have hmem' := List.mem_of_getElem? hj
      exact hP.others (hop.confined hsound) (h.generation_ne hj hmt (Ne.symm hij))
        (h.torrents mt' hmem').below (hm mt' hmem')
  | turn hturn => exact hP.turn hturn hmt' (h.torrents mt' hmt') (hm mt' hmt')
  | add hadded =>
    rcases List.mem_append.1 hmt' with hmem | hmem
    · exact hP.next (hm mt' hmem)
    · rw [List.mem_singleton.1 hmem]
      exact hP.next (hP.added hadded h.jobs)
  | remove => exact hm mt' (List.mem_of_mem_eraseIdx hmt')

end PS5Torrent
