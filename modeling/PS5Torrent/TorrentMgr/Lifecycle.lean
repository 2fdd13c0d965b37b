import PS5Torrent.TorrentMgr.Invariant

/-!
# Starting and stopping

A stop gives a torrent a new generation, which no job has, and so does a start
that finds something of an earlier one (`Work.Renewed`); any other start keeps
the generation (`Work.Unmoved`). Both keep the invariant.
-/

namespace PS5Torrent

open Sha1 Slots Relation Work Effect

/-! ## Generations -/

/-- The tables of jobs are the same. -/
structure World.SameJobs (a b : World) : Prop extends World.Extends a b where
  discoveryJobs : b.discoveryJobs = a.discoveryJobs
  peerConnectJobs : b.peerConnectJobs = a.peerConnectJobs
  webSeedJobs : b.webSeedJobs = a.webSeedJobs

theorem World.SameJobs.refl (a : World) : a.SameJobs a := ⟨.refl a, rfl, rfl, rfl⟩

theorem World.SameJobs.trans {a b c : World} (h : a.SameJobs b) (h' : b.SameJobs c) :
    a.SameJobs c where
  toExtends := h.toExtends.trans h'.toExtends
  discoveryJobs := h'.discoveryJobs.trans h.discoveryJobs
  peerConnectJobs := h'.peerConnectJobs.trans h.peerConnectJobs
  webSeedJobs := h'.webSeedJobs.trans h.webSeedJobs

/-- The torrent has a new generation. -/
structure Work.Renewed (w w' : Work) : Prop where
  generation : w'.mt.generation = w.nextGeneration
  nextGeneration : w'.nextGeneration = w.nextGeneration + 1
  sameJobs : w.SameJobs w'.toWorld

/-- The torrent has the generation it had. -/
structure Work.Unmoved (w w' : Work) : Prop where
  generation : w'.mt.generation = w.mt.generation
  nextGeneration : w'.nextGeneration = w.nextGeneration
  sameJobs : w.SameJobs w'.toWorld

namespace Work

variable {w w' w'' : Work}

theorem Unmoved.refl (w : Work) : w.Unmoved w := ⟨rfl, rfl, .refl _⟩

theorem Unmoved.trans (h : w.Unmoved w') (h' : w'.Unmoved w'') : w.Unmoved w'' where
  generation := h'.generation.trans h.generation
  nextGeneration := h'.nextGeneration.trans h.nextGeneration
  sameJobs := h.sameJobs.trans h'.sameJobs

theorem Renewed.trans (h : w.Renewed w') (h' : w'.Unmoved w'') : w.Renewed w'' where
  generation := h'.generation.trans h.generation
  nextGeneration := h'.nextGeneration.trans h.nextGeneration
  sameJobs := h.sameJobs.trans h'.sameJobs

end Work

variable {w : Work}

/-- The torrent differs only in what a start sets. -/
def ManagedTorrent.Opened (mt mt' : ManagedTorrent) : Prop :=
  mt' = { mt with
    state := mt'.state, errorType := mt'.errorType, errorMsg := mt'.errorMsg,
    pieceMgr := mt'.pieceMgr, fileWriter := mt'.fileWriter, startTime := mt'.startTime,
    lastAnnounceTime := mt'.lastAnnounceTime, lastProgressTime := mt'.lastProgressTime,
    lastSpeedCalc := mt'.lastSpeedCalc, lastDownloaded := mt'.lastDownloaded,
    lastUploaded := mt'.lastUploaded, strdupFailed := mt'.strdupFailed }

/-- All that a start changes, once it has dropped what is left of an earlier one. -/
structure Work.Opened (w w' : Work) : Prop where
  torrent : w.mt.Opened w'.mt
  world : w.toWorld.Moved w'.toWorld

theorem World.Moved.sameJobs {a b : World} (h : a.Moved b) : a.SameJobs b where
  toExtends := h.extends
  discoveryJobs := by rw [h.eq]
  peerConnectJobs := by rw [h.eq]
  webSeedJobs := by rw [h.eq]

theorem Work.Opened.unmoved {w' : Work} (h : w.Opened w') : w.Unmoved w' where
  generation := by rw [h.torrent]
  nextGeneration := by rw [h.world.eq]
  sameJobs := h.world.sameJobs

/-! ## Stopping -/

/-- What a stop changes. -/
theorem stopTorrent_eq (w : Work) :
    ∃ queries bytes releases pm, w.queries ≤ queries ∧ stopTorrent w = { w with
      queries := queries
      nextGeneration := w.nextGeneration + 1
      assemblyBytes := bytes
      releases := releases
      mt.generation := w.nextGeneration
      mt.state := .stopped
      mt.pieceMgr := pm
      mt.fileWriter := fileWriterFinish w.mt.fileWriter
      mt.peers := []
      mt.activePeers := 0
      mt.peerCandidates := []
      mt.nextCandidate := 0
      mt.trackerFailures := 0
      mt.speedDown := 0
      mt.speedUp := 0
      mt.peerLog := []
      mt.rounds := []
      mt.strdupFailed := false } := by
  rw [stopTorrent]
  obtain ⟨queries, bytes, releases, peers, candidates, log, active, pm, hle, hlog, h⟩ :=
    disconnectPeers_eq (renewTorrent w)
  have hlog' : log = [] := hlog TorrentState.noConfusion
  rw [h, hlog']
  exact ⟨queries, bytes, releases, pm, hle, rfl⟩

theorem renewed_stopTorrent (w : Work) : w.Renewed (stopTorrent w) := by
  obtain ⟨queries, bytes, releases, pm, hle, h⟩ := stopTorrent_eq w
  rw [h]
  exact ⟨rfl, rfl, { World.Extends.refl _ with queries := hle }, rfl, rfl, rfl⟩

/-- What is left of a torrent that is stopped. -/
structure Work.Stopped (w : Work) : Prop where
  ok : w.mt.Ok w.webSeedJobs
  state : w.mt.state = .stopped ∨ w.mt.state = .error
  peers : w.mt.peers = []
  noBatch : ∀ job, some job ∈ w.webSeedJobs → job.generation ≠ w.mt.generation

theorem ok_renewTorrent (h : w.mt.Ok w.webSeedJobs) (hjobs : w.JobsBelow) :
    (renewTorrent w).mt.Ok (renewTorrent w).webSeedJobs :=
  { h with
    counted := h.counted.of_state TorrentState.noConfusion TorrentState.noConfusion
    batches := fun job hjob hgen => absurd hgen (hjobs.webSeed job hjob).ne
    pieces := TorrentState.noConfusion
    ledger := TorrentState.noConfusion }

theorem state_disconnectPeers (w : Work) : (disconnectPeers w).mt.state = w.mt.state := by
  obtain ⟨queries, bytes, releases, peers, candidates, log, active, pm, -, -, h⟩ := disconnectPeers_eq w
  rw [h]

theorem stopped_stopTorrent (h : w.mt.Ok w.webSeedJobs) (hjobs : w.JobsBelow) :
    (stopTorrent w).Stopped := by
  obtain ⟨hok, -⟩ := ok_disconnectPeers (ok_renewTorrent h hjobs)
  have hstate : (disconnectPeers (renewTorrent w)).mt.state = .stopped := state_disconnectPeers _
  refine ⟨{ hok with
    pieces := fun hd => ?_
    ledger := fun hd => ?_ }, .inl hstate, rfl, fun job hjob => ?_⟩
  · exact absurd (hstate.symm.trans hd) TorrentState.noConfusion
  · exact absurd (hstate.symm.trans hd) TorrentState.noConfusion
  · rw [(renewed_stopTorrent w).generation]
    rw [(renewed_stopTorrent w).sameJobs.webSeedJobs] at hjob
    exact (hjobs.webSeed job hjob).ne

/-! ## Starting -/

/-- What a start finds, or makes of what it finds: nothing of an earlier start is left. -/
structure Work.Blank (w : Work) : Prop extends w.Stopped where
  pieces : w.mt.pieceMgr.pieces = none
  downloaded : w.mt.downloaded = 0
  writes : w.mt.writes = []

/-- Without pieces nothing is complete. -/
theorem Counted.blank {t : Torrent} {pm : PieceMgr} {state : TorrentState}
    {downloaded lastDownloaded : ℕ} {writes : List PieceWrite}
    (h : Counted t pm state downloaded lastDownloaded writes) (hpieces : pm.pieces = none)
    (hdownloading : state ≠ .downloading) (hdone : state ≠ .done) :
    Counted t pm state 0 lastDownloaded [] := by
  have hstate (i : ℕ) : pm.state i ≠ some .complete := by
    rw [PieceMgr.state, hpieces]
    simp
  refine .empty hstate ?_ (fun i => ?_) hdownloading hdone
  · rw [h.numComplete, Finset.card_eq_zero]
    exact Finset.filter_eq_empty_iff.2 fun i _ => hstate i
  · exact Bool.eq_false_iff.2 fun hbit => hstate i ((h.bitfield i).1 hbit)

theorem Work.Stopped.ne (h : w.Stopped) : w.mt.state ≠ .downloading ∧ w.mt.state ≠ .done := by
  rcases h.state with h | h
  · rw [h]
    exact ⟨TorrentState.noConfusion, TorrentState.noConfusion⟩
  · rw [h]
    exact ⟨TorrentState.noConfusion, TorrentState.noConfusion⟩

/-- A start drops what is left of an earlier one, and nothing else has peers or batches. -/
theorem blank_resetTorrent (h : w.mt.Ok w.webSeedJobs) (hjobs : w.JobsBelow)
    (hstate : w.mt.state = .stopped ∨ w.mt.state = .error) (hidle : w.Idle) :
    (resetTorrent w).Blank := by
  rw [resetTorrent]
  split
  case isTrue =>
    have hstop := stopped_stopTorrent h hjobs
    refine { hstop with
      ok := { hstop.ok with
        fits := fun hpieces => absurd hpieces Bool.false_ne_true
        counted := .empty (fun i hi => by cases hi) rfl (fun i => hasBit_replicate 0 i)
          hstop.ne.1 hstop.ne.2
        pieces := fun hd => absurd hd hstop.ne.1
        ledger := fun hd => absurd hd hstop.ne.1 }
      pieces := rfl
      downloaded := rfl
      writes := rfl }
  case isFalse hinit =>
    rw [Bool.or_eq_true] at hinit
    obtain ⟨hpeers, hnone⟩ := hidle hinit
    have hpieces : w.mt.pieceMgr.pieces = none :=
      Option.not_isSome_iff_eq_none.1 fun h => hinit (.inl h)
    have hstopped : w.Stopped := ⟨h, hstate, hpeers, hnone.webSeed⟩
    refine { hstopped with
      ok := { h with counted := h.counted.blank hpieces hstopped.ne.1 hstopped.ne.2 }
      pieces := hpieces
      downloaded := rfl
      writes := rfl }

theorem resetTorrent_moves (w : Work) : (w.mt.Initialized → w.Renewed (resetTorrent w)) ∧
    (¬w.mt.Initialized → w.Unmoved (resetTorrent w)) := by
  rw [resetTorrent, ManagedTorrent.Initialized, ← Bool.or_eq_true]
  split
  case isTrue hinit =>
    have hstop := renewed_stopTorrent w
    exact ⟨fun _ => ⟨hstop.generation, hstop.nextGeneration, { hstop.sameJobs with }⟩,
      fun h => absurd hinit h⟩
  case isFalse hinit =>
    exact ⟨fun h => absurd h hinit, fun _ => ⟨rfl, rfl, { World.SameJobs.refl _ with }⟩⟩

/-- A new piece manager for a torrent that is not downloading. -/
theorem ok_pieceMgrInit (piecesOk bitfieldOk : Bool) (h : w.Blank)
    (hmagnet : ¬(w.mt.isMagnet && w.mt.torrent.numPieces = 0)) :
    { w.mt with pieceMgr := pieceMgrInit piecesOk bitfieldOk w.mt.torrent : ManagedTorrent }.Ok
      w.webSeedJobs := by
  have hfile : w.mt.isMagnet = false := by
    refine Bool.eq_false_iff.2 fun htrue => hmagnet ?_
    have haccepted := h.ok.accepted
    rw [ManagedTorrent.Accepted, if_pos htrue] at haccepted
    rw [htrue, haccepted]
    rfl
  exact { h.ok with
    fits := fun hpieces => ⟨fits_pieceMgrInit hpieces, hfile⟩
    counted := by
      have hinit : Counted w.mt.torrent (pieceMgrInit piecesOk bitfieldOk w.mt.torrent) w.mt.state 0
          w.mt.lastDownloaded [] := .init h.ne.1 h.ne.2
      rw [← h.downloaded, ← h.writes] at hinit
      exact hinit
    pieces := fun hd => absurd hd h.ne.1
    ledger := fun hd => absurd hd h.ne.1 }

/-- The download of a torrent that is set up begins. -/
theorem ok_beginDownload (hok : w.mt.Ok w.webSeedJobs) (hpeers : w.mt.peers = [])
    (hnone : ∀ job, some job ∈ w.webSeedJobs → job.generation ≠ w.mt.generation)
    (hpieces : w.mt.pieceMgr.pieces.isSome)
    (hfree : ∀ i, w.mt.pieceMgr.state i = some .free ∨ w.mt.pieceMgr.state i = none) :
    (beginDownload w).mt.Ok (beginDownload w).webSeedJobs := by
  have hledger : Ledger w.mt.torrent w.mt.pieceMgr w.mt.peers
      (jobHolders w.mt.generation w.webSeedJobs) := by
    rw [hpeers]
    refine .empty (fun i => ?_) (fun i => ?_) fun i => jobHolders_eq_zero hnone
    · rcases hfree i with h | h <;> rw [h] <;> simp
    · rcases hfree i with h | h <;> rw [h] <;> simp
  exact { hok with
    counted := hok.counted.begin
    pieces := fun _ => hpieces
    ledger := fun _ => hledger }

/-- A torrent of which nothing is left is set up. -/
theorem ok_openTorrent (h : w.Blank) :
    (openTorrent w).2.mt.Ok (openTorrent w).2.webSeedJobs := by
  rw [openTorrent]
  split
  case isTrue => exact (Step.fail _ _).ok h.ok
  case isFalse hmagnet =>
    have hok := ok_pieceMgrInit w.outcome.succeeds w.next.outcome.succeeds h hmagnet
    dsimp only
    split
    case isTrue =>
      exact (Step.fail (w := { w.next.next with mt.pieceMgr := _ }) _ _).ok hok
    case isFalse hsome =>
      rw [Bool.or_eq_true, not_or, Option.isNone_iff_eq_none, ← ne_eq,
        ← Option.isSome_iff_ne_none] at hsome
      split
      case h_1 fw sys _ =>
        refine ok_beginDownload (w := { w.next.next.next with
          sys := sys
          mt.fileWriter := fw
          mt.pieceMgr := pieceMgrInit w.outcome.succeeds w.next.outcome.succeeds w.mt.torrent })
          { hok with } h.peers h.noBatch hsome.1 fun i => ?_
        have hstate := state_pieceMgrInit w.outcome.succeeds w.next.outcome.succeeds w.mt.torrent i
        split at hstate
        exacts [.inl hstate, .inr hstate]
      case h_2 fw sys _ =>
        exact (Step.fail (w := { w.next.next.next with
          sys := sys
          mt.fileWriter := fw
          mt.strdupFailed := _
          mt.pieceMgr := _ }) _ _).ok { hok with }

theorem stopped_or_error {state : TorrentState}
    (h : ¬(state = .downloading ∨ state = .seeding ∨ state = .done)) :
    state = .stopped ∨ state = .error := by
  cases state with
  | stopped => exact .inl rfl
  | error => exact .inr rfl
  | downloading => exact absurd (.inl rfl) h
  | seeding => exact absurd (.inr (.inl rfl)) h
  | done => exact absurd (.inr (.inr rfl)) h

/-- A start keeps the invariant. -/
theorem ok_startTorrent (h : w.mt.Ok w.webSeedJobs) (hjobs : w.JobsBelow) (hidle : w.Idle) :
    (startTorrent w).2.mt.Ok (startTorrent w).2.webSeedJobs := by
  rw [startTorrent]
  split
  case isTrue => exact { h with }
  case isFalse hstate =>
    have hstopped := stopped_or_error hstate
    have hblank := blank_resetTorrent h hjobs hstopped hidle
    dsimp only
    cases ensureDirectoryTree (resetTorrent w).mt.savePath (resetTorrent w).sys with
    | error e sys => exact (Step.fail (w := { resetTorrent w with sys := sys }) _ _).ok hblank.ok
    | ok _ sys => exact ok_openTorrent (w := { resetTorrent w with sys := sys }) { hblank with }

/-! ## What other torrents see -/

theorem opened_openTorrent (w : Work) : w.Opened (openTorrent w).2 := by
  rw [openTorrent]
  split
  case isTrue => exact ⟨rfl, .refl _⟩
  case isFalse =>
    dsimp only
    split
    case isTrue => exact ⟨rfl, rfl, Nat.le_add_right _ 2⟩
    case isFalse =>
      split
      · exact ⟨rfl, rfl, Nat.le_add_right _ 5⟩
      · exact ⟨rfl, rfl, Nat.le_add_right _ 3⟩

/-- A start that is not idle drops what is left of an earlier one. -/
theorem startTorrent_cases (w : Work) :
    (startTorrent w).2 = { w with mt.errorType := .none, mt.errorMsg := [] } ∧
        w.mt.state ≠ .stopped ∧ w.mt.state ≠ .error ∨
      (w.mt.state = .stopped ∨ w.mt.state = .error) ∧
        (resetTorrent w).Opened (startTorrent w).2 := by
  rw [startTorrent]
  split
  case isTrue hstate =>
    refine .inl ⟨rfl, ?_⟩
    rcases hstate with h | h | h
    all_goals
      rw [h]
      exact ⟨TorrentState.noConfusion, TorrentState.noConfusion⟩
  case isFalse hstate =>
    refine .inr ⟨stopped_or_error hstate, ?_⟩
    dsimp only
    cases ensureDirectoryTree (resetTorrent w).mt.savePath (resetTorrent w).sys with
    | error e sys => exact ⟨rfl, rfl, le_rfl⟩
    | ok _ sys =>
      have h := opened_openTorrent { resetTorrent w with sys := sys }
      exact ⟨h.torrent, h.world.eq, h.world.queries⟩

namespace Work

variable {w' : Work}

theorem Renewed.confined (h : w.Renewed w') (hlt : w.mt.generation < w.nextGeneration) :
    w.Confined w' where
  world := h.sameJobs.toExtends
  generation := .inr ⟨h.generation, h.nextGeneration⟩
  discovery := by rw [h.sameJobs.discoveryJobs]
  peerConnect := by rw [h.sameJobs.peerConnectJobs]
  webSeed := by rw [h.sameJobs.webSeedJobs]
  continues hgen := by
    rw [h.generation] at hgen
    exact absurd hgen hlt.ne'

theorem Unmoved.confined (h : w.Unmoved w') (hinit : ¬w.mt.Initialized) : w.Confined w' where
  world := h.sameJobs.toExtends
  generation := .inl ⟨h.generation, h.nextGeneration⟩
  discovery := by rw [h.sameJobs.discoveryJobs]
  peerConnect := by rw [h.sameJobs.peerConnectJobs]
  webSeed := by rw [h.sameJobs.webSeedJobs]
  continues _ h := absurd h hinit

end Work

theorem confined_startTorrent (hlt : w.mt.generation < w.nextGeneration) :
    w.Confined (startTorrent w).2 := by
  rcases startTorrent_cases w with ⟨h, -⟩ | ⟨-, h⟩
  · rw [h]
    exact { (Local.refl w).confined with }
  · by_cases hinit : w.mt.Initialized
    · exact (((resetTorrent_moves w).1 hinit).trans h.unmoved).confined hlt
    · exact (((resetTorrent_moves w).2 hinit).trans h.unmoved).confined hinit

theorem World.SameJobs.noJobs {a b : World} {generation : ℕ} (h : a.SameJobs b)
    (hnone : a.NoJobs generation) : b.NoJobs generation where
  announces := h.announces ▸ hnone.announces
  discovery := h.discoveryJobs ▸ hnone.discovery
  peerConnect := h.peerConnectJobs ▸ hnone.peerConnect
  webSeed := h.webSeedJobs ▸ hnone.webSeed

/-- No job has a new generation. -/
theorem Work.Renewed.noJobs {w' : Work} (h : w.Renewed w') (hjobs : w.JobsBelow) :
    w'.NoJobs w'.mt.generation := by
  rw [h.generation]
  exact h.sameJobs.noJobs hjobs.noJobs

theorem peers_resetTorrent (hidle : w.Idle) : (resetTorrent w).mt.peers = [] := by
  rw [resetTorrent]
  split
  case isTrue => rfl
  case isFalse hinit =>
    rw [Bool.or_eq_true] at hinit
    exact (hidle hinit).1

/-- No job is for a torrent that is set up anew. -/
theorem Work.Opened.noJobs {w' : Work} (h : (resetTorrent w).Opened w') (hjobs : w.JobsBelow)
    (hidle : w.Idle) : w'.NoJobs w'.mt.generation := by
  by_cases hinit : w.mt.Initialized
  · exact (((resetTorrent_moves w).1 hinit).trans h.unmoved).noJobs hjobs
  · have hunmoved := ((resetTorrent_moves w).2 hinit).trans h.unmoved
    rw [hunmoved.generation]
    exact hunmoved.sameJobs.noJobs (hidle hinit).2

theorem idle_startTorrent (hjobs : w.JobsBelow) (hidle : w.Idle) : (startTorrent w).2.Idle := by
  intro hinit'
  rcases startTorrent_cases w with ⟨h, -⟩ | ⟨-, h⟩
  · rw [h] at hinit' ⊢
    exact ⟨(hidle hinit').1, { (hidle hinit').2 with }⟩
  · refine ⟨?_, h.noJobs hjobs hidle⟩
    rw [h.torrent]
    exact peers_resetTorrent hidle

theorem idle_stopTorrent (hjobs : w.JobsBelow) : (stopTorrent w).Idle :=
  fun _ => ⟨rfl, (renewed_stopTorrent w).noJobs hjobs⟩

end PS5Torrent
