import PS5Torrent.TorrentMgr.Step
import PS5Torrent.Library.Slots

/-!
# What work on a torrent leaves alone

Work on a torrent in a tick keeps its generation and its metainfo, schedules
jobs of its own generation only, and never makes it download again
(`Work.Local`).
-/

namespace PS5Torrent

open Slots Relation Work

/-- The piece manager or the file writer is set up. -/
def ManagedTorrent.Initialized (mt : ManagedTorrent) : Prop :=
  mt.pieceMgr.pieces.isSome ∨ mt.fileWriter.basePath.isSome

/-- No job or announce is of a generation. -/
structure World.NoJobs (world : World) (generation : ℕ) : Prop where
  announces : ∀ a ∈ world.announces, a.generation ≠ generation
  discovery : ∀ job, some job ∈ world.discoveryJobs → job.result.generation ≠ generation
  peerConnect : ∀ job, some job ∈ world.peerConnectJobs → job.generation ≠ generation
  webSeed : ∀ job, some job ∈ world.webSeedJobs → job.generation ≠ generation

/-- The jobs and announces are of generations before the next one. -/
structure World.JobsBelow (world : World) : Prop where
  announces : ∀ a ∈ world.announces, a.generation < world.nextGeneration
  discovery : ∀ job, some job ∈ world.discoveryJobs → job.result.generation < world.nextGeneration
  peerConnect : ∀ job, some job ∈ world.peerConnectJobs → job.generation < world.nextGeneration
  webSeed : ∀ job, some job ∈ world.webSeedJobs → job.generation < world.nextGeneration

theorem World.JobsBelow.noJobs {world : World} (h : world.JobsBelow) :
    world.NoJobs world.nextGeneration where
  announces a ha := (h.announces a ha).ne
  discovery job hjob := (h.discovery job hjob).ne
  peerConnect job hjob := (h.peerConnect job hjob).ne
  webSeed job hjob := (h.webSeed job hjob).ne

/-- A torrent that is not set up has no peers and no jobs. -/
def Work.Idle (w : Work) : Prop :=
  ¬w.mt.Initialized → w.mt.peers = [] ∧ w.NoJobs w.mt.generation

/-- The environment is the same, its tape is read on, and the histories grow. -/
structure World.Extends (world world' : World) : Prop where
  env : world'.env = world.env
  queries : world.queries ≤ world'.queries
  requests : world.requests <:+ world'.requests
  announces : world'.announces = world.announces
  failures : world.failures <:+ world'.failures

theorem World.Extends.refl (world : World) : world.Extends world where
  env := rfl
  queries := le_rfl
  requests := List.suffix_refl _
  announces := rfl
  failures := List.suffix_refl _

theorem World.Extends.trans {world world' world'' : World} (h : world.Extends world')
    (h' : world'.Extends world'') : world.Extends world'' where
  env := h'.env.trans h.env
  queries := h.queries.trans h'.queries
  requests := h.requests.trans h'.requests
  announces := h'.announces.trans h.announces
  failures := h.failures.trans h'.failures

theorem World.Extends.read {world world' : World} {now : ℕ} (h : world.Extends world')
    (hread : world.Read now) : world'.Read now := by
  obtain ⟨k, hk, htime⟩ := hread
  exact ⟨k, hk.trans_le h.queries, by rw [h.env, htime]⟩

/-- Only the system and the place on the tape have changed. -/
structure World.Moved (world world' : World) : Prop where
  eq : world' = { world with sys := world'.sys, queries := world'.queries }
  queries : world.queries ≤ world'.queries

theorem World.Moved.refl (world : World) : world.Moved world := ⟨rfl, le_rfl⟩

theorem World.Moved.trans {world world' world'' : World} (h : world.Moved world')
    (h' : world'.Moved world'') : world.Moved world'' where
  eq := by
    have heq := h'.eq
    rw [h.eq] at heq
    exact heq
  queries := h.queries.trans h'.queries

theorem World.Moved.extends {world world' : World} (h : world.Moved world') :
    world.Extends world' where
  env := by rw [h.eq]
  queries := h.queries
  requests := by rw [h.eq]
  announces := by rw [h.eq]
  failures := by rw [h.eq]

/-- What an operation on a torrent does to its generation and to the jobs: it
    may give the torrent the next generation, and otherwise never makes it
    download again. -/
structure Work.Confined (w w' : Work) : Prop where
  world : w.toWorld.Extends w'.toWorld
  generation : w'.mt.generation = w.mt.generation ∧ w'.nextGeneration = w.nextGeneration ∨
    w'.mt.generation = w.nextGeneration ∧ w'.nextGeneration = w.nextGeneration + 1
  discovery : others (·.result.generation) w.mt.generation w'.discoveryJobs =
    others (·.result.generation) w.mt.generation w.discoveryJobs
  peerConnect : others PeerConnectJob.generation w.mt.generation w'.peerConnectJobs =
    others PeerConnectJob.generation w.mt.generation w.peerConnectJobs
  webSeed : others WebSeedJob.generation w.mt.generation w'.webSeedJobs =
    others WebSeedJob.generation w.mt.generation w.webSeedJobs
  continues : w'.mt.generation = w.mt.generation → w.mt.Initialized →
    w'.mt.Initialized ∧ (w'.mt.state = .downloading → w.mt.state = .downloading)

/-- What work in a tick keeps. -/
structure Work.Local (w w' : Work) : Prop where
  world : w.toWorld.Extends w'.toWorld
  generation : w'.mt.generation = w.mt.generation
  torrent : w'.mt.torrent = w.mt.torrent
  isMagnet : w'.mt.isMagnet = w.mt.isMagnet
  totalSize : w'.mt.totalSize = w.mt.totalSize
  state : w'.mt.state = .downloading → w.mt.state = .downloading
  pieces : w'.mt.pieceMgr.pieces.isSome = w.mt.pieceMgr.pieces.isSome
  fileWriter : w'.mt.fileWriter.basePath = w.mt.fileWriter.basePath
  nextGeneration : w'.nextGeneration = w.nextGeneration
  discovery : others (·.result.generation) w.mt.generation w'.discoveryJobs =
    others (·.result.generation) w.mt.generation w.discoveryJobs
  peerConnect : others PeerConnectJob.generation w.mt.generation w'.peerConnectJobs =
    others PeerConnectJob.generation w.mt.generation w.peerConnectJobs
  webSeed : others WebSeedJob.generation w.mt.generation w'.webSeedJobs =
    others WebSeedJob.generation w.mt.generation w.webSeedJobs

namespace Work.Local

variable {w w' w'' : Work}

theorem refl (w : Work) : w.Local w where
  world := .refl _
  generation := rfl
  torrent := rfl
  isMagnet := rfl
  totalSize := rfl
  state := id
  pieces := rfl
  fileWriter := rfl
  nextGeneration := rfl
  discovery := rfl
  peerConnect := rfl
  webSeed := rfl

theorem trans (h : w.Local w') (h' : w'.Local w'') : w.Local w'' where
  world := h.world.trans h'.world
  generation := h'.generation.trans h.generation
  torrent := h'.torrent.trans h.torrent
  isMagnet := h'.isMagnet.trans h.isMagnet
  totalSize := h'.totalSize.trans h.totalSize
  state := h.state ∘ h'.state
  pieces := h'.pieces.trans h.pieces
  fileWriter := h'.fileWriter.trans h.fileWriter
  nextGeneration := h'.nextGeneration.trans h.nextGeneration
  discovery := (h.generation ▸ h'.discovery).trans h.discovery
  peerConnect := (h.generation ▸ h'.peerConnect).trans h.peerConnect
  webSeed := (h.generation ▸ h'.webSeed).trans h.webSeed

/-- A torrent stays set up. -/
theorem initialized (h : w.Local w') (hw : w.mt.Initialized) : w'.mt.Initialized := by
  rw [ManagedTorrent.Initialized, h.pieces, h.fileWriter]
  exact hw

theorem confined (h : w.Local w') : w.Confined w' where
  world := h.world
  generation := .inl ⟨h.generation, h.nextGeneration⟩
  discovery := h.discovery
  peerConnect := h.peerConnect
  webSeed := h.webSeed
  continues _ hw := ⟨h.initialized hw, h.state⟩

end Work.Local

/-! ## Each step -/

variable {w w' : Work} {p : TorrentPeer} {pm : PieceMgr}

@[simp]
theorem isSome_pieces_setState {index : ℕ} {s : PieceState} :
    (pm.setState index s).pieces.isSome = pm.pieces.isSome := by
  rw [PieceMgr.setState, Option.isSome_map]

@[simp]
theorem isSome_pieces_leaves : (p.leaves pm).pieces.isSome = pm.pieces.isSome := by
  rw [TorrentPeer.leaves, TorrentPeer.freed]
  split
  · rfl
  · split
    · exact isSome_pieces_setState
    · rfl

@[simp]
theorem isSome_pieces_pieceMgrComplete {index : ℕ} {data : Bytes} :
    (pieceMgrComplete pm index data).2.pieces.isSome = pm.pieces.isSome := by
  rw [pieceMgrComplete]
  split
  · rfl
  · split
    · exact isSome_pieces_setState
    · exact isSome_pieces_setState

@[simp]
theorem isSome_pieces_pieceMgrRequest {index : ℕ} :
    (pieceMgrRequest pm index).pieces.isSome = pm.pieces.isSome := by
  rw [pieceMgrRequest]
  split
  · rfl
  · exact isSome_pieces_setState

@[simp]
theorem isSome_pieces_requestPieces {n first : ℕ} :
    (requestPieces n first pm).pieces.isSome = pm.pieces.isSome := by
  induction n generalizing first pm with
  | zero => rfl
  | succ n ih => rw [requestPieces, ih, isSome_pieces_pieceMgrRequest]

@[simp]
theorem isSome_pieces_freePieces {n first : ℕ} :
    (freePieces n first pm).pieces.isSome = pm.pieces.isSome := by
  induction n generalizing first pm with
  | zero => rfl
  | succ n ih =>
    rw [freePieces, ih]
    split
    · exact isSome_pieces_setState
    · rfl

theorem local_disconnectPeer (i : ℕ) (w : Work) : w.Local (disconnectPeer i w) := by
  cases hp : w.mt.peers[i]? with
  | none =>
    rw [disconnectPeer_of_none hp]
    exact .refl w
  | some p =>
    obtain ⟨queries, candidates, log, active, hle, -, h⟩ := disconnectPeer_eq' hp
    rw [h]
    exact { Local.refl w with
      world := { World.Extends.refl _ with queries := hle }
      pieces := isSome_pieces_leaves }

theorem local_foldl {f : Work → ℕ → Work} (h : ∀ (w : Work) i, w.Local (f w i)) (is : List ℕ)
    (w : Work) :
    w.Local (is.foldl f w) := by
  induction is generalizing w with
  | nil => exact .refl w
  | cons i is ih => exact (h w i).trans (ih _)

theorem local_disconnectPeers (w : Work) : w.Local (disconnectPeers w) :=
  local_foldl (fun w i => local_disconnectPeer i w) _ w

/-- A slot that is free may be filled. -/
theorem others_set_of_free {Job : Type} {key : Job → ℕ} {generation slot : ℕ}
    {jobs : List (Option Job)} {job : Job} (hslot : jobs[slot]?.join = none)
    (hjob : key job = generation) :
    others key generation (jobs.set slot (some job)) = others key generation jobs := by
  refine others_set (fun a ha => ?_) fun a ha => ?_
  · rw [ha] at hslot
    cases hslot
  · rw [← Option.some.inj ha, hjob]

theorem Work.Step.local (h : Step w w') : w.Local w' := by
  cases h with
  | query =>
    exact { Local.refl w with world := { World.Extends.refl _ with queries := Nat.le_succ _ } }
  | speed | takeCandidate | postpone => exact { Local.refl w with }
  | peer | receive => exact { Local.refl w with }
  | report hmt =>
    rw [hmt]
    exact { Local.refl w with }
  | finish hstate h hfull hhash hwrite =>
    obtain ⟨downloaded, heq⟩ := finishPiece_eq (getElem?_setPeer h.peer _) hhash hwrite
    rw [heq]
    exact { Local.refl w with
      world := { World.Extends.refl _ with }
      pieces := isSome_pieces_leaves.trans isSome_pieces_pieceMgrComplete }
  | fail =>
    exact { Local.refl w with
      world := { World.Extends.refl _ with failures := List.suffix_cons _ _ }
      state := TorrentState.noConfusion }
  | reject =>
    refine .trans ?_ (local_disconnectPeer _ _)
    exact { Local.refl w with }
  | writeFailed =>
    refine .trans ?_ (local_disconnectPeer _ _)
    exact { Local.refl w with
      world := { World.Extends.refl _ with failures := List.suffix_cons _ _ }
      state := TorrentState.noConfusion }
  | disconnect => exact local_disconnectPeer _ w
  | claim =>
    exact { Local.refl w with
      world := { World.Extends.refl _ with }
      pieces := isSome_pieces_pieceMgrRequest }
  | request =>
    exact { Local.refl w with
      world := { World.Extends.refl _ with requests := List.suffix_cons _ _ } }
  | discovery hslot =>
    exact { Local.refl w with
      world := { World.Extends.refl _ with queries := Nat.le_succ _ }
      discovery := others_set_of_free hslot rfl }
  | connect hslot =>
    exact { Local.refl w with
      world := { World.Extends.refl _ with }
      peerConnect := others_set_of_free (by rw [hslot]; rfl) rfl }
  | webSeed hslot hbatch =>
    exact { Local.refl w with
      world := { World.Extends.refl _ with }
      pieces := isSome_pieces_requestPieces
      webSeed := others_set_of_free (by rw [hslot]; rfl) rfl }

theorem local_completeTorrent (w : Work) : w.Local (completeTorrent w) := by
  have hlocal := local_disconnectPeers w
  exact { hlocal with
    world := { hlocal.world with }
    state := TorrentState.noConfusion }

theorem Work.Steps.local (h : Steps w w') : w.Local w' := by
  induction h with
  | refl => exact .refl w
  | tail _ hstep ih => exact ih.trans hstep.local

end PS5Torrent
