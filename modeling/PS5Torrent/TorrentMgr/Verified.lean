import PS5Torrent.FileIo.Kept
import PS5Torrent.Torrent.Publish
import PS5Torrent.TorrentMgr.Disk

/-!
# What is complete is on disk

The point of all the bookkeeping: if a piece is complete, then what can be
read back for it from the output files has the hash that the metainfo gives
for it (`ManagedTorrent.OnDisk`). This holds in every run in which no two
torrents have an output file in common (`onDisk_of_run`), whatever fails in
it, and so does what follows for a torrent that is done: its files hold a
payload all of whose pieces verify (`exists_payload_of_done`).
-/

namespace PS5Torrent

open Relation Sha1 FileSystem FileLayout LexPath Effect Work TorrentMgr

/-- Every piece that is complete is in its places, with data that has its hash. -/
def ManagedTorrent.OnDisk (mt : ManagedTorrent) (f : Contents) : Prop :=
  ∀ index < mt.torrent.numPieces, mt.pieceMgr.state index = some .complete →
    ∃ data, data.length = mt.torrent.pieceSize index ∧
      sha1Hash data = mt.torrent.pieceHash index ∧ mt.torrent.HasPiece mt.savePath f data index

/-- The pieces that are requested have holders, whether the torrent downloads or has failed. -/
structure Work.Held (w : Work) : Prop where
  pieces : w.mt.pieceMgr.pieces.isSome
  ledger : Ledger w.mt.torrent w.mt.pieceMgr w.mt.peers (jobHolders w.mt.generation w.webSeedJobs)

/-- Work that writes nothing and completes no piece. -/
structure Work.Idles (w w' : Work) : Prop where
  output : w'.mt.output = w.mt.output
  content : w'.sys.fs.content = w.sys.fs.content
  complete : ∀ index, w'.mt.pieceMgr.state index = some .complete →
    w.mt.pieceMgr.state index = some .complete

variable {w w' w'' : Work} {i index : ℕ} {p : TorrentPeer} {data : Bytes}

namespace Work.Idles

theorem of_sameComplete (houtput : w'.mt.output = w.mt.output) (hsys : w'.sys = w.sys)
    (hsame : w.mt.pieceMgr.SameComplete w'.mt.pieceMgr) : w.Idles w' :=
  ⟨houtput, hsys ▸ rfl, fun index => (hsame.complete index).1⟩

theorem of_eq (houtput : w'.mt.output = w.mt.output) (hsys : w'.sys = w.sys)
    (hpieces : w'.mt.pieceMgr = w.mt.pieceMgr) : w.Idles w' :=
  of_sameComplete houtput hsys (hpieces ▸ .refl _)

theorem trans (h : w.Idles w') (h' : w'.Idles w'') : w.Idles w'' where
  output := h'.output.trans h.output
  content := h'.content.trans h.content
  complete index hstate := h.complete index (h'.complete index hstate)

theorem onDisk (h : w.Idles w') (hdisk : w.mt.OnDisk w.sys.fs.content) :
    w'.mt.OnDisk w'.sys.fs.content := by
  have htorrent : w'.mt.torrent = w.mt.torrent := congrArg Output.torrent h.output
  have hpath : w'.mt.savePath = w.mt.savePath := congrArg Output.savePath h.output
  rw [ManagedTorrent.OnDisk, htorrent, hpath, h.content]
  exact fun index hindex hstate => hdisk index hindex (h.complete index hstate)

end Work.Idles

/-! ## Writing a piece -/

/-- Writing a piece that is not complete leaves the complete ones in their places. -/
theorem onDisk_writePiece (hdisk : w.mt.OnDisk w.sys.fs.content)
    (hdistinct : w.mt.outputPaths.Nodup) (hfw : w.mt.fileWriter.For w.mt.torrent w.mt.savePath)
    (hg : w.mt.torrent.Geometry) (hindex : index < w.mt.torrent.numPieces)
    (hstate : w.mt.pieceMgr.state index ≠ some .complete)
    (hdata : data.length = w.mt.torrent.pieceSize index) :
    (w.writePiece index data).2.mt.OnDisk (w.writePiece index data).2.sys.fs.content := by
  intro other hother hcomplete
  obtain ⟨data', hlen, hhash, hhas⟩ := hdisk other hother hcomplete
  have hne : other ≠ index := by
    rintro rfl
    exact hstate hcomplete
  exact ⟨data', hlen, hhash, hhas.writePiece hdistinct hfw hg hindex hlen hdata hne⟩

/-- A piece that is verified and written is on disk, and may be complete. -/
theorem onDisk_complete {pm : PieceMgr} (hdisk : w.mt.OnDisk w.sys.fs.content)
    (hdistinct : w.mt.outputPaths.Nodup) (hfw : w.mt.fileWriter.For w.mt.torrent w.mt.savePath)
    (hg : w.mt.torrent.Geometry) (hindex : index < w.mt.torrent.numPieces)
    (hstate : w.mt.pieceMgr.state index ≠ some .complete)
    (hdata : data.length = w.mt.torrent.pieceSize index)
    (hhash : sha1Hash data = w.mt.torrent.pieceHash index)
    (hwrite : (w.writePiece index data).1 = true)
    (hpm : ∀ other, other ≠ index → pm.state other = some .complete →
      w.mt.pieceMgr.state other = some .complete) :
    { (w.writePiece index data).2.mt with pieceMgr := pm }.OnDisk
      (w.writePiece index data).2.sys.fs.content := by
  intro other hother hcomplete
  by_cases hne : other = index
  · subst hne
    obtain ⟨s, hs⟩ := exists_of_succeeds hwrite
    have hhas := hasPiece_of_writePiece hdistinct hfw hg hindex hdata hs
    refine ⟨data, hdata, hhash, ?_⟩
    change w.mt.torrent.HasPiece w.mt.savePath
      (final (fileWriterWritePiece w.mt.fileWriter data other) w.sys).fs.content data other
    rwa [final_of_ok hs]
  · exact onDisk_writePiece hdisk hdistinct hfw hg hindex hstate hdata other hother
      (hpm other hne hcomplete)

/-! ## A tick -/

theorem idles_disconnectPeer (i : ℕ) (w : Work) : w.Idles (disconnectPeer i w) := by
  refine .of_sameComplete (writes_disconnectPeer i w).output ?_ (sameComplete_disconnectPeer i w)
  cases hp : w.mt.peers[i]? with
  | none => rw [disconnectPeer_of_none hp]
  | some p =>
    obtain ⟨queries, candidates, log, active, -, -, heq⟩ := disconnectPeer_eq' hp
    rw [heq]
    rfl

namespace Work.Held

theorem fits (h : w.Held) (hok : w.mt.Ok w.webSeedJobs) : w.mt.pieceMgr.Fits w.mt.torrent :=
  (hok.fits h.pieces).1

theorem disconnectPeer (i : ℕ) (h : w.Held) (hfits : w.mt.pieceMgr.Fits w.mt.torrent) :
    (disconnectPeer i w).Held := by
  cases hp : w.mt.peers[i]? with
  | none =>
    rw [disconnectPeer_of_none hp]
    exact h
  | some p =>
    obtain ⟨queries, candidates, log, active, -, -, heq⟩ := disconnectPeer_eq' hp
    rw [heq]
    exact ⟨isSome_pieces_leaves.trans h.pieces, h.ledger.leaves hfits hp rfl⟩

theorem setPeer {p' : TorrentPeer} (h : w.Held) (hp : w.mt.peers[i]? = some p)
    (hp' : p.SameTransfer p') : (w.setPeer i p').Held := by
  rw [hp']
  have hok := h.ledger.peers _ (List.mem_of_getElem? hp)
  exact ⟨h.pieces, h.ledger.setPeer hp { hok with } fun _ => rfl⟩

theorem receive {buffer : Bytes} (h : w.Held) (hok : w.mt.Ok w.webSeedJobs)
    (hreceives : w.Receives i p buffer data) : (w.setPeer i (p.received buffer data)).Held := by
  have hpeer := h.ledger.peers _ (List.mem_of_getElem? hreceives.peer)
  have hnew := hpeer.receive (hok.geometry h.pieces) hreceives.buffer hreceives.le
  refine ⟨h.pieces, h.ledger.setPeer hreceives.peer hnew fun j => ?_⟩
  rw [TorrentPeer.holds, TorrentPeer.holds, hreceives.buffer]
  rfl

/-- The piece of a peer that has all of it is requested, and has its size. -/
theorem assembled {buffer : Bytes} (h : w.Held) (hok : w.mt.Ok w.webSeedJobs)
    (hreceives : w.Receives i p buffer data) :
    w.mt.pieceMgr.state p.lastRequest = some .requested ∧
      p.lastRequest < w.mt.torrent.numPieces ∧
      (p.assembled buffer data).length = w.mt.torrent.pieceSize p.lastRequest := by
  have hmem := List.mem_of_getElem? (getElem?_setPeer hreceives.peer (p.received buffer data))
  have hreceived := h.receive hok hreceives
  have hpeer := hreceived.ledger.peers _ hmem
  have hrequested := hreceived.ledger.state_of_holds hmem
    (TorrentPeer.holds_iff.2 ⟨hpeer.connected rfl, rfl, rfl⟩)
  refine ⟨hrequested, ?_, ?_⟩
  · rw [← (h.fits hok).state]
    exact Option.isSome_of_eq_some hrequested
  · have hlen : (memcpyAt buffer p.pieceReceived data).length = p.pieceSize := hpeer.length _ rfl
    have hsize : p.pieceSize = w.mt.torrent.pieceSize p.lastRequest := hpeer.size rfl
    rw [TorrentPeer.assembled, List.length_take, hlen, min_self, hsize]

end Work.Held

/-- What a tick relies on to keep the complete pieces on disk. -/
structure Work.Saves (w : Work) : Prop where
  ok : w.mt.Ok w.webSeedJobs
  held : w.Held
  writer : w.mt.fileWriter.For w.mt.torrent w.mt.savePath
  distinct : w.mt.outputPaths.Nodup
  onDisk : w.mt.OnDisk w.sys.fs.content

/-- The pieces of a batch that is scheduled are free. -/
theorem batch_free {mt : ManagedTorrent} {first : ℕ} {sizes : List ℕ} (hg : mt.torrent.Geometry)
    (hfits : mt.pieceMgr.Fits mt.torrent) (hbatch : webSeedBatch mt = some (first, sizes)) :
    first + sizes.length ≤ mt.pieceMgr.numPieces ∧
      ∀ j, first ≤ j → j < first + sizes.length → mt.pieceMgr.state j = some .free := by
  obtain ⟨hne, -, hsizes⟩ := webSeedBatch_eq_some hbatch
  have hpos := List.length_pos_iff.2 hne
  have hisBatch : mt.torrent.IsBatch first sizes := by
    rw [hsizes]
    exact isBatch_batchSizes hg 0
  have hlast := hisBatch.lt_numPieces (i := first + sizes.length - 1) (by omega) (by omega)
  refine ⟨by rw [hfits.numPieces]; omega, fun j hl hu => ?_⟩
  rw [hsizes] at hu
  exact state_of_batchSizes hl hu

theorem Work.Step.held (hstep : Step w w') (hok : w.mt.Ok w.webSeedJobs) (h : w.Held) : w'.Held := by
  have hfits := h.fits hok
  cases hstep with
  | query | takeCandidate | postpone | discovery | connect | speed | fail => exact ⟨h.pieces, h.ledger⟩
  | report hmt =>
    rw [hmt]
    exact ⟨h.pieces, h.ledger⟩
  | peer hp hp' => exact h.setPeer hp hp'.sameTransfer
  | @request i now p hp =>
    have hsame : p.SameTransfer (p.requested now (min PEER_BLOCK_SIZE
        (sub64 p.pieceSize p.pieceReceived))) := rfl
    exact ⟨h.pieces, (h.setPeer hp hsame).ledger⟩
  | receive hreceives => exact h.receive hok hreceives
  | @finish i p buffer data hstate hreceives hfull hhash hwrite =>
    have hreceived := h.receive hok hreceives
    obtain ⟨downloaded, heq⟩ := finishPiece_eq (getElem?_setPeer hreceives.peer _) hhash hwrite
    rw [heq]
    refine ⟨isSome_pieces_leaves.trans (isSome_pieces_pieceMgrComplete.trans h.pieces), ?_⟩
    exact hreceived.ledger.complete hfits (getElem?_setPeer hreceives.peer _) rfl hhash rfl
  | reject hreceives => exact (h.receive hok hreceives).disconnectPeer _ hfits
  | writeFailed errorType errorMsg hreceives =>
    have hreceived := h.receive hok hreceives
    exact Held.disconnectPeer _ ⟨hreceived.pieces, hreceived.ledger⟩ hfits
  | disconnect => exact h.disconnectPeer _ hfits
  | claim hstate hp hsock hdata hbitfield hpending hnext =>
    obtain ⟨hindex, hfree, -⟩ := pieceMgrGetNext_eq_some (hok.numPieces_lt h.pieces) hnext
    exact ⟨isSome_pieces_pieceMgrRequest.trans h.pieces,
      h.ledger.claim (hok.geometry h.pieces) hfits hp hsock hdata hindex hfree⟩
  | @webSeed slot first sizes hslot hbatch =>
    obtain ⟨hend, hfree⟩ := batch_free (hok.geometry h.pieces) hfits hbatch
    refine ⟨isSome_pieces_requestPieces.trans h.pieces, h.ledger.request hend hfree fun j => ?_⟩
    have hset := jobHolders_set j (webSeedJob w.mt first sizes) hslot rfl
    exact hset.trans (congrArg _ (if_congr WebSeedJob.covers_iff rfl rfl))

theorem Work.Step.saves (hstep : Step w w') (h : w.Saves) : w'.Saves := by
  have houtput := hstep.writes.output
  have htorrent : w'.mt.torrent = w.mt.torrent := congrArg Output.torrent houtput
  have hpath : w'.mt.savePath = w.mt.savePath := congrArg Output.savePath houtput
  have hwriter : w'.mt.fileWriter = w.mt.fileWriter := congrArg Output.fileWriter houtput
  refine ⟨hstep.ok h.ok, hstep.held h.ok h.held, ?_, ?_, ?_⟩
  · rw [htorrent, hpath, hwriter]
    exact h.writer
  · rw [ManagedTorrent.outputPaths, htorrent, hpath]
    exact h.distinct
  have hg := h.ok.geometry h.held.pieces
  cases hstep with
  | query | takeCandidate | postpone | discovery | connect | speed | fail => exact h.onDisk
  | report hmt =>
    exact (Idles.of_eq houtput rfl (by rw [hmt])).onDisk h.onDisk
  | peer | request | receive => exact h.onDisk
  | @finish i p buffer data hstate hreceives hfull hhash hwrite =>
    obtain ⟨hrequested, hindex, hdata⟩ := h.held.assembled h.ok hreceives
    obtain ⟨downloaded, heq⟩ := finishPiece_eq (getElem?_setPeer hreceives.peer _) hhash hwrite
    rw [heq]
    refine onDisk_complete h.onDisk h.distinct h.writer hg hindex
      (by rw [hrequested]; decide) hdata hhash hwrite fun other hne hcomplete => ?_
    have hleft : (pieceMgrComplete w.mt.pieceMgr p.lastRequest (p.assembled buffer data)).2.state
        other = some .complete := (PieceMgr.SameComplete.leaves.complete other).1 hcomplete
    rwa [state_pieceMgrComplete (h.held.fits h.ok) hindex hhash, if_neg (Ne.symm hne)] at hleft
  | @reject i p buffer data hreceives =>
    have hset : w.Idles (w.setPeer i (p.received buffer data)) := .of_eq rfl rfl rfl
    exact (hset.trans (idles_disconnectPeer _ _)).onDisk h.onDisk
  | @writeFailed i p buffer data errorType errorMsg hreceives hfull hhash hwrite =>
    obtain ⟨hrequested, hindex, hdata⟩ := h.held.assembled h.ok hreceives
    have hdisk := onDisk_writePiece h.onDisk h.distinct h.writer hg hindex
      (by rw [hrequested]; decide) hdata
    exact (idles_disconnectPeer _ _).onDisk hdisk
  | disconnect => exact (idles_disconnectPeer _ _).onDisk h.onDisk
  | claim hstate hp hsock hdata hbitfield hpending hnext =>
    obtain ⟨hindex, hfree, -⟩ := pieceMgrGetNext_eq_some (h.ok.numPieces_lt h.held.pieces) hnext
    exact (Idles.of_sameComplete houtput rfl
      (.request (by rw [hfree]; decide))).onDisk h.onDisk
  | @webSeed slot first sizes hslot hbatch =>
    obtain ⟨-, hfree⟩ := batch_free hg (h.held.fits h.ok) hbatch
    exact (Idles.of_sameComplete houtput rfl (.requests fun j hl hu => by
      rw [hfree j hl hu]
      decide)).onDisk h.onDisk

theorem Work.Steps.saves (hsteps : Steps w w') (h : w.Saves) : w'.Saves := by
  induction hsteps with
  | refl => exact h
  | tail _ hstep ih => exact hstep.saves ih

/-! ## A batch -/

/-- What a batch that is saved relies on. -/
structure Work.Files (w : Work) : Prop where
  geometry : w.mt.torrent.Geometry
  fits : w.mt.pieceMgr.Fits w.mt.torrent
  writer : w.mt.fileWriter.For w.mt.torrent w.mt.savePath
  distinct : w.mt.outputPaths.Nodup
  onDisk : w.mt.OnDisk w.sys.fs.content

theorem Work.Files.of_sameComplete (h : w.Files) (houtput : w'.mt.output = w.mt.output)
    (hsys : w'.sys = w.sys) (hsame : w.mt.pieceMgr.SameComplete w'.mt.pieceMgr) : w'.Files := by
  have htorrent : w'.mt.torrent = w.mt.torrent := congrArg Output.torrent houtput
  have hpath : w'.mt.savePath = w.mt.savePath := congrArg Output.savePath houtput
  have hwriter : w'.mt.fileWriter = w.mt.fileWriter := congrArg Output.fileWriter houtput
  refine ⟨htorrent ▸ h.geometry, htorrent ▸ hsame.fits h.fits, ?_, ?_, ?_⟩
  · rw [htorrent, hpath, hwriter]
    exact h.writer
  · rw [ManagedTorrent.outputPaths, htorrent, hpath]
    exact h.distinct
  · exact (Idles.of_sameComplete houtput hsys hsame).onDisk h.onDisk

/-- A piece of a batch that is not complete is saved, or does not become so. -/
theorem files_commitPiece (h : w.Files) (hindex : index < w.mt.torrent.numPieces)
    (hstate : w.mt.pieceMgr.state index ≠ some .complete)
    (hdata : data.length = w.mt.torrent.pieceSize index) :
    (commitPiece index data w).2.Files ∧ ((commitPiece index data w).1 = false →
      (commitPiece index data w).2.mt.pieceMgr = w.mt.pieceMgr) := by
  rw [commitPiece]
  split
  case isTrue => exact ⟨h, fun _ => rfl⟩
  case isFalse hhash =>
    rw [not_not] at hhash
    rw [← Prod.mk.eta (p := w.writePiece index data)]
    cases hwrite : (w.writePiece index data).1 with
    | false =>
      exact ⟨⟨h.geometry, h.fits, h.writer, h.distinct,
        onDisk_writePiece h.onDisk h.distinct h.writer h.geometry hindex hstate hdata⟩,
          fun _ => rfl⟩
    | true =>
      have hfst : (pieceMgrComplete w.mt.pieceMgr index data).1 = true := by
        rw [pieceMgrComplete_eq h.fits hindex hhash]
      have hcall : pieceMgrComplete (w.writePiece index data).2.mt.pieceMgr index data =
          (true, (pieceMgrComplete w.mt.pieceMgr index data).2) := Prod.ext hfst rfl
      dsimp only
      rw [if_neg (by decide), hcall]
      refine ⟨⟨h.geometry, h.fits.complete hindex hhash, h.writer, h.distinct, ?_⟩,
        fun hfalse => by cases hfalse⟩
      refine onDisk_complete h.onDisk h.distinct h.writer h.geometry hindex hstate hdata hhash hwrite
        fun other hne hcomplete => ?_
      rwa [state_pieceMgrComplete h.fits hindex hhash, if_neg (Ne.symm hne)] at hcomplete

theorem files_commitPieces {first offset saved : ℕ} {sizes : List ℕ} (h : w.Files)
    (hbatch : w.mt.torrent.IsBatch first sizes) (hlen : data.length = offset + sizes.sum) :
    (commitPieces data first offset saved sizes w).2.2.Files := by
  induction sizes generalizing first offset saved w with
  | nil => exact h
  | cons size sizes ih =>
    obtain ⟨hindex, rfl, hrest⟩ := hbatch
    rw [List.sum_cons, ← Nat.add_assoc] at hlen
    rw [commitPieces]
    split
    case isTrue => exact ih h hrest hlen
    case isFalse hskip =>
      have hstate : w.mt.pieceMgr.state first ≠ some .complete := fun hc => hskip (.inr hc)
      have hdata : ((data.drop offset).take (w.mt.torrent.pieceSize first)).length =
          w.mt.torrent.pieceSize first := by
        rw [List.length_take, List.length_drop]
        omega
      obtain ⟨hcommit, hsame⟩ := files_commitPiece h hindex hstate hdata
      have hwrites := writes_commitPiece first ((data.drop offset).take
        (w.mt.torrent.pieceSize first)) w
      split
      case h_1 w' heq =>
        rw [heq] at hcommit hsame
        refine hcommit.of_sameComplete rfl rfl (.setState ?_ PieceState.noConfusion)
        rw [hsame rfl]
        exact hstate
      case h_2 w' heq =>
        rw [heq] at hcommit hwrites
        have htorrent : w'.mt.torrent = w.mt.torrent := congrArg Output.torrent hwrites.output
        exact ih (hcommit.of_sameComplete rfl rfl (.refl _)) (htorrent ▸ hrest) hlen

theorem files_applyWebSeed {job : WebSeedJob} (h : w.Files) (hjob : job.Ok w.mt.torrent) :
    (applyWebSeed job w).Files := by
  rw [applyWebSeed]
  split
  case isTrue => exact h
  case isFalse =>
    split
    case isFalse => exact h.of_sameComplete rfl rfl .frees
    case isTrue =>
      have hcommit : (commitPieces job.data job.firstPiece 0 0 job.pieceSizes w).2.2.Files :=
        files_commitPieces h hjob.isBatch (by rw [hjob.length, Nat.zero_add])
      generalize commitPieces job.data job.firstPiece 0 0 job.pieceSizes w = r at hcommit
      obtain ⟨ok, saved, w'⟩ := r
      have hnote : (noteProgress saved w').Files := by
        rw [noteProgress]
        split
        · exact hcommit.of_sameComplete rfl rfl (.refl _)
        · exact hcommit
      dsimp only
      split
      case isTrue => exact hnote
      case isFalse => exact hnote.of_sameComplete rfl rfl .frees

/-! ## An operation -/

/-- Without complete pieces nothing has to be on disk. -/
theorem onDisk_of_ne {mt : ManagedTorrent} (h : ∀ index, mt.pieceMgr.state index ≠ some .complete)
    (f : Contents) : mt.OnDisk f :=
  fun index _ hstate => absurd hstate (h index)

theorem state_of_pieces_eq_none {pm : PieceMgr} (h : pm.pieces = none) (index : ℕ) :
    pm.state index ≠ some .complete := by
  rw [PieceMgr.state, h]
  simp

/-- No piece is complete when a download begins. -/
theorem state_openTorrent (h : w.mt.pieceMgr.pieces = none) (index : ℕ) :
    (openTorrent w).2.mt.pieceMgr.state index ≠ some .complete := by
  have hinit : (pieceMgrInit w.outcome.succeeds w.next.outcome.succeeds w.mt.torrent).state index ≠
      some .complete := by
    rw [state_pieceMgrInit]
    split
    · decide
    · decide
  rw [openTorrent]
  split
  case isTrue => exact state_of_pieces_eq_none h index
  case isFalse =>
    dsimp only
    split
    case isTrue => exact hinit
    case isFalse =>
      split
      · exact hinit
      · exact hinit

/-- A start drops the pieces, unless there is nothing to start. -/
theorem onDisk_startTorrent (hsound : w.Sound) (h : w.mt.OnDisk w.sys.fs.content) :
    (startTorrent w).2.mt.OnDisk (startTorrent w).2.sys.fs.content := by
  rw [startTorrent]
  split
  case isTrue => exact h
  case isFalse hstate =>
    have hblank := blank_resetTorrent hsound.ok hsound.jobs (stopped_or_error hstate) hsound.idle
    dsimp only
    cases ensureDirectoryTree (resetTorrent w).mt.savePath (resetTorrent w).sys with
    | error e sys => exact onDisk_of_ne (state_of_pieces_eq_none hblank.pieces) _
    | ok _ sys => exact onDisk_of_ne (state_openTorrent (w := { resetTorrent w with sys := sys })
        hblank.pieces) _

theorem idles_disconnectPeers (w : Work) : w.Idles (disconnectPeers w) := by
  rw [disconnectPeers]
  generalize List.range w.mt.peers.length = is
  induction is generalizing w with
  | nil => exact .of_eq rfl rfl rfl
  | cons i is ih => exact (idles_disconnectPeer i w).trans (ih _)

theorem idles_applyConnection (job : PeerConnectJob) (w : Work) :
    w.Idles (applyConnection job w) := by
  obtain ⟨queries, mt, -, heq, hsame | ⟨sock, remoteId, candidates, hadd⟩⟩ := applyConnection_eq job w
  · rw [heq, hsame]
    exact .of_eq rfl rfl rfl
  · rw [heq]
    obtain ⟨peers, active, rfl⟩ := addPeer_eq hadd
    exact .of_eq rfl rfl rfl

namespace Work.Op

/-- An operation on a torrent keeps its complete pieces on disk. -/
theorem onDisk (hop : Op w w') (hsound : w.Sound) (hready : w.mt.WriterReady)
    (hdistinct : w.mt.outputPaths.Nodup) (h : w.mt.OnDisk w.sys.fs.content) :
    w'.mt.OnDisk w'.sys.fs.content := by
  cases hop with
  | tick hstate hsteps =>
    have hheld : w.Held := ⟨hsound.ok.pieces hstate, hsound.ok.ledger hstate⟩
    exact (hsteps.saves ⟨hsound.ok, hheld, hready hstate, hdistinct, h⟩).onDisk
  | complete hstate hdone =>
    exact (idles_disconnectPeers w).onDisk h
  | start => exact onDisk_startTorrent hsound h
  | stop =>
    have hsame := sameComplete_stopTorrent w
    obtain ⟨queries, bytes, releases, pm, -, heq⟩ := stopTorrent_eq w
    rw [heq] at hsame ⊢
    exact fun index hindex hcomplete => h index hindex ((hsame.complete index).1 hcomplete)
  | @candidates slot job hstate =>
    rw [sameTransfer_addCandidates job.queue w.mt]
    exact h
  | @discovery slot job hstate =>
    have hmt : w.mt.SameTransfer (applyDiscovery job.result w).mt :=
      (sameTransfer_discovered w.outcome.time job.result w.mt).trans rfl
    have hidles : w.Idles (applyDiscovery job.result w) := by
      refine .of_eq ?_ rfl ?_
      · rw [hmt]
        rfl
      · rw [hmt]
    exact hidles.onDisk h
  | @connection slot job hstate => exact (idles_applyConnection job w).onDisk h
  | @webSeed slot job hstate hslot hjob hdone =>
    have hok := hsound.ok.batches job (List.mem_of_getElem? hslot) hjob
    have hpieces := hsound.ok.pieces hstate
    exact (files_applyWebSeed ⟨hsound.ok.geometry hpieces, (hsound.ok.fits hpieces).1,
      hready hstate, hdistinct, h⟩ hok).onDisk

/-- An operation on a torrent changes its own output files only. -/
theorem files (hop : Op w w') (hready : w.mt.WriterReady) :
    w'.mt.outputPaths = w.mt.outputPaths ∧ ChangesOnlyAt w.mt.outputPaths w.sys w'.sys := by
  have hof (w' : Work) (houtput : w'.mt.output = w.mt.output) :
      w'.mt.outputPaths = w.mt.outputPaths := by
    have htorrent : w'.mt.torrent = w.mt.torrent := congrArg Output.torrent houtput
    have hpath : w'.mt.savePath = w.mt.savePath := congrArg Output.savePath houtput
    rw [ManagedTorrent.outputPaths, ManagedTorrent.outputPaths, htorrent, hpath]
  cases hop with
  | tick hstate hsteps => exact ⟨hof w' hsteps.writes.output, hsteps.writes.files (hready hstate)⟩
  | complete hstate =>
    obtain ⟨queries, bytes, releases, peers, candidates, log, active, pm, -, -, heq⟩ :=
      disconnectPeers_eq w
    rw [completeTorrent, heq]
    exact ⟨rfl, refl_of (ChangesOnlyAt _) _⟩
  | start =>
    refine ⟨?_, (startTorrent_writes hready).1⟩
    rcases startTorrent_cases w with ⟨heq, -⟩ | ⟨-, hopened⟩
    · rw [heq]
      rfl
    · obtain ⟨htorrent, hpath, -⟩ := output_resetTorrent w
      rw [hopened.torrent, ManagedTorrent.outputPaths, ManagedTorrent.outputPaths, ← htorrent, ← hpath]
  | stop =>
    rw [sys_stopTorrent]
    obtain ⟨queries, bytes, releases, pm, -, heq⟩ := stopTorrent_eq w
    rw [heq]
    exact ⟨rfl, refl_of (ChangesOnlyAt _) _⟩
  | @candidates slot job hstate =>
    rw [sameTransfer_addCandidates job.queue w.mt]
    exact ⟨rfl, refl_of (ChangesOnlyAt _) _⟩
  | @discovery slot job hstate =>
    refine ⟨hof _ ?_, refl_of (ChangesOnlyAt _) _⟩
    change ((job.result.discovered w.outcome.time w.mt).logRound _).output = _
    rw [sameTransfer_discovered w.outcome.time job.result w.mt]
    rfl
  | @connection slot job hstate =>
    refine ⟨hof (applyConnection job w) (idles_applyConnection job w).output, ?_⟩
    obtain ⟨queries, mt, -, heq, -⟩ := applyConnection_eq job w
    rw [heq]
    exact refl_of (ChangesOnlyAt _) _
  | @webSeed slot job hstate =>
    have hwrites := writes_applyWebSeed job w
    exact ⟨hof (applyWebSeed job w) hwrites.output, hwrites.files (hready hstate)⟩

end Work.Op

/-! ## Runs -/

namespace TorrentMgr

/-- No two torrents have an output file in common. -/
def Apart (m : TorrentMgr) : Prop :=
  ∀ (i j : ℕ) (mt mt' : ManagedTorrent), m.torrents[i]? = some mt → m.torrents[j]? = some mt' →
    i ≠ j → mt.outputPaths.Disjoint mt'.outputPaths

/-- At no time in a run do two torrents have an output file in common. -/
def StaysApart (m : TorrentMgr) : List Event → Prop
  | [] => m.Apart
  | event :: events => m.Apart ∧ (m.step event).StaysApart events

/-- Each torrent that writes no file twice has its complete pieces on disk. -/
structure Verified (m : TorrentMgr) : Prop where
  sound : m.Sound
  timed : ∀ mt ∈ m.torrents, mt.Timed m.toWorld
  ready : ∀ mt ∈ m.torrents, mt.WriterReady
  onDisk : ∀ mt ∈ m.torrents, mt.outputPaths.Nodup → mt.OnDisk m.sys.fs.content

end TorrentMgr

variable {m m' : TorrentMgr} {mt : ManagedTorrent}

/-- The jobs touch no file. -/
theorem sys_turn {torrents : List ManagedTorrent} {world world' : World}
    (h : World.Turn torrents world world') : world'.sys = world.sys := by
  cases h <;> rfl

theorem ManagedTorrent.OnDisk.of_eq {f f' : Contents} (h : mt.OnDisk f)
    (heq : ∀ path ∈ mt.outputPaths, f' path = f path) : mt.OnDisk f' := by
  intro index hindex hstate
  obtain ⟨data, hlen, hhash, hhas⟩ := h index hindex hstate
  exact ⟨data, hlen, hhash, hhas.of_eq heq⟩

theorem TorrentMgr.Move.verified (hmove : Move m m') (hapart : m.Apart) (h : m.Verified) :
    m'.Verified := by
  refine ⟨hmove.sound h.sound, invariant_timed.move hmove h.sound h.timed,
    invariant_writerReady.move hmove h.sound h.ready, ?_⟩
  intro mt' hmt' hdistinct
  cases hmove with
  | @op i mt w hmt hop =>
    have hmem := List.mem_of_getElem? hmt
    obtain ⟨hpaths, hchanges⟩ := hop.files (h.ready mt hmem)
    obtain ⟨j, hj⟩ := List.mem_iff_getElem?.1 hmt'
    rw [List.getElem?_set] at hj
    split at hj
    case isTrue hij =>
      split at hj
      · obtain rfl := Option.some.inj hj
        rw [hpaths] at hdistinct
        exact hop.onDisk (h.sound.torrents mt hmem) (h.ready mt hmem) hdistinct
          (h.onDisk mt hmem hdistinct)
      · cases hj
    case isFalse hij =>
      -- the files of the other torrents are not among those that change
      refine (h.onDisk mt' (List.mem_of_getElem? hj) hdistinct).of_eq fun path hpath => ?_
      exact hchanges path fun hmem' => hapart j i mt' mt hj hmt (Ne.symm hij) hpath hmem'
  | turn hturn =>
    rw [sys_turn hturn]
    exact h.onDisk mt' hmt' hdistinct
  | add hadded =>
    rcases List.mem_append.1 hmt' with hmem | hmem
    · exact h.onDisk mt' hmem hdistinct
    · obtain ⟨_, _, _, _, _, rfl, -⟩ := hadded
      rw [List.mem_singleton.1 hmem]
      exact onDisk_of_ne (state_of_pieces_eq_none rfl) _
  | remove => exact h.onDisk mt' (List.mem_of_mem_eraseIdx hmt') hdistinct

/-- Moves that remove no torrent keep the output paths, and may append those of torrents that are
    added. -/
theorem outputPaths_stays (hstays : Stays m m') (hsound : m.Sound)
    (hready : ∀ mt ∈ m.torrents, mt.WriterReady) :
    m.torrents.map ManagedTorrent.outputPaths <+: m'.torrents.map ManagedTorrent.outputPaths := by
  induction hstays with
  | refl => exact List.prefix_rfl
  | @tail m₁ m₂ hstays hstay ih =>
    refine ih.trans ?_
    have hready₁ := (invariant_writerReady.moves (Stays.moves hstays) hsound hready).2
    obtain ⟨hmove, hlength⟩ := hstay
    cases hmove with
    | @op i mt w hmt hop =>
      obtain ⟨hlt, hget⟩ := List.getElem?_eq_some_iff.1 hmt
      rw [List.map_set, (hop.files (hready₁ mt (List.mem_of_getElem? hmt))).1, ← List.map_set, ← hget,
        List.set_getElem_self]
    | turn => exact List.prefix_rfl
    | add => exact List.map_append ▸ List.prefix_append _ _
    | @remove i mt hmt =>
      rw [List.length_eraseIdx_of_lt (List.getElem?_eq_some_iff.1 hmt).1] at hlength
      have hlt := (List.getElem?_eq_some_iff.1 hmt).1
      omega

theorem TorrentMgr.Apart.of_isPrefix (h : m'.Apart)
    (hpaths : m.torrents.map ManagedTorrent.outputPaths <+:
      m'.torrents.map ManagedTorrent.outputPaths) : m.Apart := by
  have hsame (i : ℕ) (mt : ManagedTorrent) (hmt : m.torrents[i]? = some mt) :
      ∃ mt' : ManagedTorrent, m'.torrents[i]? = some mt' ∧ mt'.outputPaths = mt.outputPaths := by
    have hget : (m.torrents.map ManagedTorrent.outputPaths)[i]? = some mt.outputPaths := by
      rw [List.getElem?_map, hmt, Option.map_some]
    have hlt := (List.getElem?_eq_some_iff.1 hget).1
    rw [List.prefix_iff_getElem?] at hpaths
    have hget' := (hpaths i hlt).trans (List.getElem?_eq_getElem hlt ▸ hget)
    rw [List.getElem?_map, Option.map_eq_some_iff] at hget'
    exact hget'
  intro i j mt mt' hmt hmt' hne
  obtain ⟨mt₁, hmt₁, heq⟩ := hsame i mt hmt
  obtain ⟨mt₂, hmt₂, heq'⟩ := hsame j mt' hmt'
  rw [← heq, ← heq']
  exact h i j mt₁ mt₂ hmt₁ hmt₂ hne

theorem TorrentMgr.Stays.verified (hstays : Stays m m') (hapart : m'.Apart) (h : m.Verified) :
    m'.Verified := by
  induction hstays using ReflTransGen.head_induction_on with
  | refl => exact h
  | @head m m₁ hstay hstays ih =>
    have hall := outputPaths_stays (.head hstay hstays) h.sound h.ready
    exact ih (hstay.1.verified (hapart.of_isPrefix hall) h)

theorem verified_torrentMgrRemove (index : ℤ) (hapart : m.Apart) (h : m.Verified) :
    (m.torrentMgrRemove index).Verified := by
  rw [torrentMgrRemove]
  split
  case isTrue => exact h
  case isFalse hindex =>
    rw [torrentMgrStop, if_neg hindex]
    cases hmt : m.torrents[index.toNat]? with
    | none =>
      rw [onTorrent_of_none hmt]
      dsimp only
      rw [List.eraseIdx_of_length_le (List.getElem?_eq_none_iff.1 hmt)]
      exact h
    | some mt =>
      rw [onTorrent_eq hmt]
      have hstop := (Move.op hmt .stop).verified hapart h
      generalize (⟨(stopTorrent ⟨m.toWorld, mt⟩).toWorld,
        m.torrents.set index.toNat (stopTorrent ⟨m.toWorld, mt⟩).mt⟩ : TorrentMgr) = m' at hstop
      have hmem {mt' : ManagedTorrent} (hmt' : mt' ∈ m'.torrents.eraseIdx index.toNat) :
          mt' ∈ m'.torrents := List.mem_of_mem_eraseIdx hmt'
      refine ⟨⟨?_, hstop.sound.jobs, fun mt' hmt' => hstop.sound.torrents mt' (hmem hmt')⟩,
        fun mt' hmt' => hstop.timed mt' (hmem hmt'), fun mt' hmt' => hstop.ready mt' (hmem hmt'),
        fun mt' hmt' => hstop.onDisk mt' (hmem hmt')⟩
      exact hstop.sound.nodup.sublist ((List.eraseIdx_sublist _ _).map _)

theorem verified_step (event : Event) (hapart : m.Apart) (hapart' : (m.step event).Apart)
    (h : m.Verified) : (m.step event).Verified := by
  by_cases hevent : ∃ index, event = .remove index
  · obtain ⟨index, rfl⟩ := hevent
    exact verified_torrentMgrRemove index hapart h
  · exact (stays_step h.sound h.timed (not_exists.1 hevent)).verified hapart' h

theorem verified_run {events : List Event} (hapart : m.StaysApart events) (h : m.Verified) :
    (m.run events).Verified := by
  induction events generalizing m with
  | nil => exact h
  | cons event events ih =>
    have hnext : (m.step event).Apart := by
      cases events with
      | nil => exact hapart.2
      | cons event' events => exact hapart.2.1
    exact ih hapart.2 (verified_step event hapart.1 hnext h)

theorem verified_init (sys : Sys) (strerror : Errno → Bytes) (env : ℕ → Outcome) :
    (TorrentMgr.init sys strerror env).Verified :=
  ⟨sound_init sys strerror env, List.forall_mem_nil _, List.forall_mem_nil _, List.forall_mem_nil _⟩

variable {sys : Sys} {strerror : Errno → Bytes} {env : ℕ → Outcome} {events : List Event}

/-- A run in which there is at most one torrent. -/
theorem staysApart_of_length
    (h : ∀ n ≤ events.length, (m.run (events.take n)).torrents.length ≤ 1) : m.StaysApart events := by
  have happart (m : TorrentMgr) (hlen : m.torrents.length ≤ 1) : m.Apart := by
    intro i j mt mt' hmt hmt' hne
    have hi := (List.getElem?_eq_some_iff.1 hmt).1
    have hj := (List.getElem?_eq_some_iff.1 hmt').1
    omega
  induction events generalizing m with
  | nil => exact happart m (h 0 le_rfl)
  | cons event events ih =>
    exact ⟨happart m (h 0 (Nat.zero_le _)), ih fun n hn => h (n + 1) (Nat.succ_le_succ hn)⟩

theorem staysApart_doneMgr : (TorrentMgr.init (sysWith []) (fun _ => []) calmEnv).StaysApart
    [.addRaw seededTorrent (lit "/d") [], .start 0, .tick, .webSeedDone 0 pieceNet, .tick, .tick] :=
  staysApart_of_length (by decide +kernel)

/-- In every run in which no two torrents have an output file in common, and for every torrent that
    writes no file twice: what can be read back for a complete piece has the size of the piece and
    the hash that the metainfo gives for it. -/
theorem onDisk_of_run (hapart : (TorrentMgr.init sys strerror env).StaysApart events)
    (hmt : mt ∈ ((TorrentMgr.init sys strerror env).run events).torrents)
    (hdistinct : mt.outputPaths.Nodup) (hstate : mt.pieceMgr.state index = some .complete) :
    (mt.torrent.pieceOnDisk mt.savePath
        ((TorrentMgr.init sys strerror env).run events).sys.fs.content index).length =
        mt.torrent.pieceSize index ∧
      sha1Hash (mt.torrent.pieceOnDisk mt.savePath
        ((TorrentMgr.init sys strerror env).run events).sys.fs.content index) =
        mt.torrent.pieceHash index := by
  have hall := verified_run hapart (verified_init sys strerror env)
  generalize (TorrentMgr.init sys strerror env).run events = m at hmt hall
  have hok := (hall.sound.torrents mt hmt).ok
  have hpieces := PieceMgr.isSome_pieces hstate
  have hindex : index < mt.torrent.numPieces := by
    rw [← (hok.fits hpieces).1.state, hstate]
    rfl
  obtain ⟨data, hlen, hhash, hhas⟩ := hall.onDisk mt hmt hdistinct index hindex hstate
  rw [hhas.pieceOnDisk_eq (hok.geometry hpieces) hindex hlen]
  exact ⟨hlen, hhash⟩

theorem onDisk_of_run_doneMgr : ∃ mt ∈ doneMgr.torrents[0]?,
    sha1Hash (mt.torrent.pieceOnDisk mt.savePath doneMgr.sys.fs.content 0) =
      mt.torrent.pieceHash 0 := by
  have hfacts : ∃ mt ∈ doneMgr.torrents[0]?, mt.outputPaths.Nodup ∧
      mt.pieceMgr.state 0 = some .complete := by decide +kernel
  obtain ⟨mt, hmt, hdistinct, hstate⟩ := hfacts
  rw [doneMgr] at hmt ⊢
  exact ⟨mt, hmt, (onDisk_of_run staysApart_doneMgr (List.mem_of_getElem? hmt) hdistinct hstate).2⟩

/-! ### Downloads that are done -/

theorem startTorrent_ne_done (hstate : w.mt.state = .stopped ∨ w.mt.state = .error) :
    (startTorrent w).2.mt.state ≠ .done := by
  have hopen (w : Work) : w.mt.state ≠ .done → (openTorrent w).2.mt.state ≠ .done := by
    rw [openTorrent]
    split
    case isTrue => exact fun _ => TorrentState.noConfusion
    case isFalse =>
      dsimp only
      split
      case isTrue => exact fun _ => TorrentState.noConfusion
      case isFalse =>
        split
        · exact fun _ => TorrentState.noConfusion
        · exact fun _ => TorrentState.noConfusion
  have hnot : ¬(w.mt.state = .downloading ∨ w.mt.state = .seeding ∨ w.mt.state = .done) := by
    rcases hstate with hs | hs
    · rw [hs]
      simp
    · rw [hs]
      simp
  have hreset : (resetTorrent w).mt.state ≠ .done := by
    rw [resetTorrent]
    split
    case isTrue =>
      obtain ⟨queries, bytes, releases, pm, -, heq⟩ := stopTorrent_eq w
      rw [heq]
      exact TorrentState.noConfusion
    case isFalse => exact fun h => hnot (.inr (.inr h))
  rw [startTorrent, if_neg hnot]
  dsimp only
  cases ensureDirectoryTree (resetTorrent w).mt.savePath (resetTorrent w).sys with
  | error e sys => exact TorrentState.noConfusion
  | ok _ sys => exact hopen { resetTorrent w with sys := sys } hreset

/-- A torrent that is done has pieces. -/
theorem invariant_donePieces : Invariant fun _ mt => mt.state = .done → mt.pieceMgr.pieces.isSome where
  added hadded _ := by
    obtain ⟨_, _, _, _, _, rfl, -⟩ := hadded
    exact TorrentState.noConfusion
  next h := h
  op {w w'} hop hsound h := by
    have hlocal (w' : Work) (hstate : w.mt.state = .downloading) (hlocal : w.Local w') :
        w'.mt.pieceMgr.pieces.isSome := hlocal.pieces.trans (hsound.ok.pieces hstate)
    cases hop with
    | tick hstate hsteps => exact fun _ => hlocal w' hstate hsteps.local
    | complete hstate => exact fun _ => hlocal _ hstate (local_completeTorrent w)
    | start =>
      by_cases hstate : w.mt.state = .stopped ∨ w.mt.state = .error
      · exact fun hdone => absurd hdone (startTorrent_ne_done hstate)
      · rcases startTorrent_cases w with ⟨heq, -⟩ | ⟨hstate', -⟩
        · rw [heq]
          exact h
        · exact absurd hstate' hstate
    | stop =>
      obtain ⟨queries, bytes, releases, pm, -, heq⟩ := stopTorrent_eq w
      rw [heq]
      exact TorrentState.noConfusion
    | @candidates slot job hstate =>
      rw [sameTransfer_addCandidates job.queue w.mt]
      exact fun _ => hsound.ok.pieces hstate
    | @discovery slot job hstate =>
      exact fun _ => hlocal (applyDiscovery job.result w) hstate (local_applyDiscovery job.result w)
    | @connection slot job hstate =>
      exact fun _ => hlocal (applyConnection job w) hstate (local_applyConnection job w)
    | @webSeed slot job hstate hslot hjob =>
      obtain ⟨first, hcommit⟩ := committing_collect hsound hstate hslot hjob
      exact fun _ => hlocal (applyWebSeed job w) hstate (hcommit.local hstate)
  others _ _ _ h := h
  turn _ _ _ h := h

/-- In the same runs, a torrent that is done has all its pieces on disk. -/
theorem exists_pieces_of_done (hapart : (TorrentMgr.init sys strerror env).StaysApart events)
    (hmt : mt ∈ ((TorrentMgr.init sys strerror env).run events).torrents)
    (hdistinct : mt.outputPaths.Nodup) (hdone : mt.state = .done) :
    mt.torrent.Geometry ∧ ∃ pieces : ℕ → Bytes, ∀ index < mt.torrent.numPieces,
      (pieces index).length = mt.torrent.pieceSize index ∧
        sha1Hash (pieces index) = mt.torrent.pieceHash index ∧
        mt.torrent.HasPiece mt.savePath
          ((TorrentMgr.init sys strerror env).run events).sys.fs.content (pieces index) index := by
  have hall := verified_run hapart (verified_init sys strerror env)
  have hpieces := invariant_donePieces.reachable ⟨sys, strerror, env, events, rfl⟩ mt hmt hdone
  generalize (TorrentMgr.init sys strerror env).run events = m at hmt hall
  have hok := (hall.sound.torrents mt hmt).ok
  have hcomplete {index : ℕ} (hindex : index < mt.torrent.numPieces) :
      mt.pieceMgr.state index = some .complete := by
    have hmem : index ∈ mt.pieceMgr.completePieces mt.torrent := by
      rw [hok.counted.done hdone]
      exact Finset.mem_range.2 hindex
    exact (Finset.mem_filter.1 hmem).2
  refine ⟨hok.geometry hpieces, ?_⟩
  choose! pieces hondisk using fun index hindex =>
    hall.onDisk mt hmt hdistinct index hindex (hcomplete hindex)
  exact ⟨pieces, hondisk⟩

/-- In the same runs, the files of a torrent that is done begin with the parts of a payload that
    its metainfo describes. -/
theorem exists_payload_of_done (hapart : (TorrentMgr.init sys strerror env).StaysApart events)
    (hmt : mt ∈ ((TorrentMgr.init sys strerror env).run events).torrents)
    (hdistinct : mt.outputPaths.Nodup) (hdone : mt.state = .done) :
    ∃ payload, mt.torrent.Describes payload ∧
      ∀ (j : ℕ) (file : TorrentFile), mt.torrent.outputs[j]? = some file →
        ((((TorrentMgr.init sys strerror env).run events).sys.fs.content
          (outputPath mt.savePath file)).getD []).take file.size =
          mt.torrent.outputSlice payload j file := by
  obtain ⟨hg, pieces, hondisk⟩ := exists_pieces_of_done hapart hmt hdistinct hdone
  -- the payload is made up of the data that is on disk for the pieces
  have hdata (index : ℕ) (hindex : index < mt.torrent.numPieces) :=
    Torrent.pieceData_payloadOf hg hindex (hondisk index hindex).1
  have hpay := mt.torrent.length_payloadOf pieces
  refine ⟨mt.torrent.payloadOf pieces, ⟨hpay, fun index hindex => ?_⟩, fun j file hj => ?_⟩
  · rw [hdata index hindex]
    exact (hondisk index hindex).2.1
  · refine Torrent.take_content_eq hg hdistinct hpay hj fun index hindex => ?_
    rw [hdata index hindex]
    exact (hondisk index hindex).2.2

theorem exists_payload_of_done_doneMgr : ∃ mt ∈ doneMgr.torrents[0]?, ∃ payload,
    mt.torrent.Describes payload := by
  have hfacts : ∃ mt ∈ doneMgr.torrents[0]?, mt.outputPaths.Nodup ∧ mt.state = .done := by
    decide +kernel
  obtain ⟨mt, hmt, hdistinct, hdone⟩ := hfacts
  rw [doneMgr] at hmt ⊢
  obtain ⟨payload, hpayload, -⟩ :=
    exists_payload_of_done staysApart_doneMgr (List.mem_of_getElem? hmt) hdistinct hdone
  exact ⟨mt, hmt, payload, hpayload⟩

end PS5Torrent
