import PS5Torrent.TorrentMgr.Ledger

/-!
# The invariant of a torrent

What holds of a managed torrent between two calls (`ManagedTorrent.Ok`): its
metainfo was accepted, its pieces are counted right, and while it downloads
each requested piece has one holder. Each step of a tick keeps this
(`Work.Steps.ok`), and so do stop and start.
-/

namespace PS5Torrent

open Sha1 Slots Relation Work Effect

/-- Where the metainfo comes from: a file that was accepted, or a magnet link. -/
def ManagedTorrent.Accepted (mt : ManagedTorrent) : Prop :=
  if mt.isMagnet then mt.torrent.numPieces = 0
  else ∃ data, data.length ≤ HTTP_MAX_BODY ∧ torrentParse data = some mt.torrent

/-- A batch fits the torrent it is for. -/
structure WebSeedJob.Ok (job : WebSeedJob) (t : Torrent) : Prop where
  torrent : job.torrent = torrentCloneForWorker t
  isBatch : t.IsBatch job.firstPiece job.pieceSizes
  nonempty : job.pieceSizes ≠ []
  length : job.data.length = job.pieceSizes.sum

/-- The invariant of a torrent, given the table of batches. -/
structure ManagedTorrent.Ok (mt : ManagedTorrent) (jobs : List (Option WebSeedJob)) : Prop where
  accepted : mt.Accepted
  totalSize : mt.totalSize = mt.torrent.totalSize.toNat
  fits : mt.pieceMgr.pieces.isSome → mt.pieceMgr.Fits mt.torrent ∧ mt.isMagnet = false
  counted : Counted mt.torrent mt.pieceMgr mt.state mt.downloaded mt.lastDownloaded mt.writes
  batches : ∀ job, some job ∈ jobs → job.generation = mt.generation → job.Ok mt.torrent
  pieces : mt.state = .downloading → mt.pieceMgr.pieces.isSome
  ledger : mt.state = .downloading →
    Ledger mt.torrent mt.pieceMgr mt.peers (jobHolders mt.generation jobs)

namespace ManagedTorrent.Ok

variable {mt : ManagedTorrent} {jobs jobs' : List (Option WebSeedJob)}

theorem exists_data (h : mt.Ok jobs) (hpieces : mt.pieceMgr.pieces.isSome) :
    ∃ data, data.length ≤ HTTP_MAX_BODY ∧ torrentParse data = some mt.torrent := by
  have haccepted := h.accepted
  rwa [Accepted, (h.fits hpieces).2, if_neg Bool.false_ne_true] at haccepted

theorem geometry (h : mt.Ok jobs) (hpieces : mt.pieceMgr.pieces.isSome) : mt.torrent.Geometry := by
  obtain ⟨data, -, hparse⟩ := h.exists_data hpieces
  exact geometry_of_torrentParse hparse

/-- The index of a piece is an `int`. -/
theorem numPieces_lt (h : mt.Ok jobs) (hpieces : mt.pieceMgr.pieces.isSome) :
    mt.pieceMgr.numPieces < 2 ^ 31 := by
  obtain ⟨data, hlen, hparse⟩ := h.exists_data hpieces
  have hle := numPieces_le_of_torrentParse hparse
  rw [(h.fits hpieces).1.numPieces]
  rw [HTTP_MAX_BODY] at hlen
  omega

/-- Only the batches of the own generation matter. -/
theorem of_others {other : ℕ} (h : mt.Ok jobs) (hne : mt.generation ≠ other)
    (heq : others WebSeedJob.generation other jobs' = others WebSeedJob.generation other jobs) :
    mt.Ok jobs' where
  accepted := h.accepted
  totalSize := h.totalSize
  fits := h.fits
  counted := h.counted
  batches job hjob hgen := by
    have hmem : some job ∈ others WebSeedJob.generation other jobs :=
      heq ▸ mem_others.2 ⟨hjob, hgen.symm ▸ hne⟩
    exact h.batches job (mem_others.1 hmem).1 hgen
  pieces := h.pieces
  ledger hd := by
    rw [← jobHolders_others hne, heq, jobHolders_others hne]
    exact h.ledger hd

end ManagedTorrent.Ok

/-! ## Steps -/

variable {w w' : Work} {i : ℕ} {p : TorrentPeer}

theorem sameComplete_disconnectPeer (i : ℕ) (w : Work) :
    w.mt.pieceMgr.SameComplete (disconnectPeer i w).mt.pieceMgr := by
  cases hp : w.mt.peers[i]? with
  | none =>
    rw [disconnectPeer_of_none hp]
    exact .refl _
  | some p =>
    obtain ⟨queries, candidates, log, active, -, -, h⟩ := disconnectPeer_eq' hp
    rw [h]
    exact .leaves

theorem ok_disconnectPeer (i : ℕ) (h : w.mt.Ok w.webSeedJobs) :
    (disconnectPeer i w).mt.Ok (disconnectPeer i w).webSeedJobs := by
  cases hp : w.mt.peers[i]? with
  | none =>
    rw [disconnectPeer_of_none hp]
    exact h
  | some p =>
    obtain ⟨queries, candidates, log, active, -, -, heq⟩ := disconnectPeer_eq' hp
    rw [heq]
    have hsame : w.mt.pieceMgr.SameComplete (p.leaves w.mt.pieceMgr) := .leaves
    exact { h with
      fits := fun hpieces =>
        have hfits := h.fits (isSome_pieces_leaves.symm.trans hpieces)
        ⟨hsame.fits hfits.1, hfits.2⟩
      counted := h.counted.of_sameComplete hsame
      pieces := fun hd => isSome_pieces_leaves.trans (h.pieces hd)
      ledger := fun hd => (h.ledger hd).leaves (h.fits (h.pieces hd)).1 hp rfl }

theorem ok_disconnectPeers (h : w.mt.Ok w.webSeedJobs) :
    (disconnectPeers w).mt.Ok (disconnectPeers w).webSeedJobs ∧
      w.mt.pieceMgr.SameComplete (disconnectPeers w).mt.pieceMgr := by
  rw [disconnectPeers]
  generalize List.range w.mt.peers.length = is
  induction is generalizing w with
  | nil => exact ⟨h, .refl _⟩
  | cons i is ih =>
    obtain ⟨hok, hsame⟩ := ih (ok_disconnectPeer i h)
    exact ⟨hok, (sameComplete_disconnectPeer i w).trans hsame⟩

/-- A peer goes on with its piece. -/
theorem ok_setPeer {p' : TorrentPeer} (h : w.mt.Ok w.webSeedJobs) (hp : w.mt.peers[i]? = some p)
    (hp' : p.SameTransfer p') : (w.setPeer i p').mt.Ok w.webSeedJobs := by
  rw [hp']
  exact { h with
    ledger := fun hd =>
      have hok := (h.ledger hd).peers _ (List.mem_of_getElem? hp)
      (h.ledger hd).setPeer hp { hok with } fun _ => rfl }

/-- A block of a piece is put in its place. -/
theorem TorrentPeer.Ok.receive {t : Torrent} {buffer data : Bytes} (h : p.Ok t)
    (hg : t.Geometry) (hbuffer : p.pieceData = some buffer)
    (hlen : data.length ≤ sub64 p.pieceSize p.pieceReceived) : (p.received buffer data).Ok t := by
  have hsome : p.pieceData.isSome := by
    rw [hbuffer]
    rfl
  have hsize := h.size hsome
  have hreceived := h.received hsome
  have htotal := hg.totalSize_le
  have hle : p.pieceSize ≤ t.pieceLength.toNat := hsize ▸ Torrent.Geometry.pieceSize_le
  have hpl := hg.pieceLength_le
  rw [INT64_MAX] at hpl
  rw [sub64_of_le hreceived (by omega)] at hlen
  refine ⟨fun _ => h.connected hsome, fun buffer' hbuffer' => ?_, fun _ => hsize, fun _ => ?_⟩
  · obtain rfl := Option.some.inj hbuffer'
    have hcur := h.length buffer hbuffer
    exact (length_memcpyAt (by omega)).trans hcur
  · change p.pieceReceived + data.length ≤ p.pieceSize
    omega

theorem ok_receive {buffer data : Bytes} (h : w.mt.Ok w.webSeedJobs)
    (hreceives : w.Receives i p buffer data) :
    (w.setPeer i (p.received buffer data)).mt.Ok w.webSeedJobs :=
  { h with
    ledger := fun hd =>
      have hok := (h.ledger hd).peers _ (List.mem_of_getElem? hreceives.peer)
      have hnew := hok.receive (h.geometry (h.pieces hd)) hreceives.buffer hreceives.le
      (h.ledger hd).setPeer hreceives.peer hnew fun j => by
        rw [TorrentPeer.holds, TorrentPeer.holds, hreceives.buffer]
        rfl }

/-- A piece that is verified and written is complete. -/
theorem ok_finishPiece {buffer : Bytes} (h : w.mt.Ok w.webSeedJobs)
    (hstate : w.mt.state = .downloading) (hp : w.mt.peers[i]? = some p)
    (hbuffer : p.pieceData = some buffer)
    (hhash : sha1Hash (buffer.take p.pieceSize) = w.mt.torrent.pieceHash p.lastRequest)
    (hwrite : (w.writePiece p.lastRequest (buffer.take p.pieceSize)).1 = true) :
    (finishPiece i p (buffer.take p.pieceSize) p.lastRequest w).2.mt.Ok
      (finishPiece i p (buffer.take p.pieceSize) p.lastRequest w).2.webSeedJobs := by
  have hpieces := h.pieces hstate
  have hledger := h.ledger hstate
  have hfits := (h.fits hpieces).1
  have hg := h.geometry hpieces
  have hsome : p.pieceData.isSome := by
    rw [hbuffer]
    rfl
  have hpeer := hledger.peers p (List.mem_of_getElem? hp)
  have hrequested := hledger.state_of_holds (List.mem_of_getElem? hp)
    (TorrentPeer.holds_iff.2 ⟨hpeer.connected hsome, hsome, rfl⟩)
  have hindex : p.lastRequest < w.mt.torrent.numPieces := by
    rw [← hfits.state, hrequested]
    rfl
  have hlen : (buffer.take p.pieceSize).length = w.mt.torrent.pieceSize p.lastRequest := by
    rw [List.length_take, hpeer.length buffer hbuffer, Nat.min_self, hpeer.size hsome]
  have hcounted := h.counted.complete hg hfits hindex (by rw [hrequested]; exact fun h => nomatch h)
    (by rw [hstate]; exact TorrentState.noConfusion) hhash hlen
  obtain ⟨downloaded, heq⟩ := finishPiece_eq hp hhash hwrite
  have hok : Effect.succeeds (fileWriterWritePiece w.mt.fileWriter (buffer.take p.pieceSize)
      p.lastRequest) w.sys = true := hwrite
  rw [heq]
  have hsame : (pieceMgrComplete w.mt.pieceMgr p.lastRequest (buffer.take p.pieceSize)).2.SameComplete
      (p.leaves (pieceMgrComplete w.mt.pieceMgr p.lastRequest (buffer.take p.pieceSize)).2) :=
    .leaves
  exact { h with
    fits := fun _ => ⟨hsame.fits (hfits.complete hindex hhash), (h.fits hpieces).2⟩
    counted := by
      have := hcounted.of_sameComplete hsame
      rw [← hpeer.size hsome, ← hok] at this
      exact this
    pieces := fun _ => isSome_pieces_leaves.trans (isSome_pieces_pieceMgrComplete.trans hpieces)
    ledger := fun _ => hledger.complete hfits hp hsome hhash rfl }

/-- A peer begins the next piece. -/
theorem ok_claim {next : ℕ} {s : Option PieceState} (h : w.mt.Ok w.webSeedJobs)
    (hstate : w.mt.state = .downloading)
    (hp : w.mt.peers[i]? = some p) (hsock : p.sock.isSome) (hdata : p.pieceData = none)
    (hnext : pieceMgrGetNext w.mt.pieceMgr p.bitfield = some next) :
    { w.mt with
      peers := w.mt.peers.set i (p.claimed s next (nextPieceSize w.mt.torrent next))
      pieceMgr := pieceMgrRequest w.mt.pieceMgr next : ManagedTorrent }.Ok w.webSeedJobs := by
  have hpieces := h.pieces hstate
  obtain ⟨hindex, hfree, -⟩ := pieceMgrGetNext_eq_some (h.numPieces_lt hpieces) hnext
  have hsame : w.mt.pieceMgr.SameComplete (pieceMgrRequest w.mt.pieceMgr next) :=
    .request (by rw [hfree]; exact fun h => nomatch h)
  exact { h with
    fits := fun _ => ⟨hsame.fits (h.fits hpieces).1, (h.fits hpieces).2⟩
    counted := h.counted.of_sameComplete hsame
    pieces := fun _ => isSome_pieces_pieceMgrRequest.trans hpieces
    ledger := fun _ => (h.ledger hstate).claim (h.geometry hpieces) (h.fits hpieces).1 hp hsock
      hdata hindex hfree }

/-- A batch is requested and its job put in a free slot. -/
theorem ok_webSeed {slot first : ℕ} {sizes : List ℕ} (h : w.mt.Ok w.webSeedJobs)
    (hslot : w.webSeedJobs[slot]? = some none)
    (hbatch : webSeedBatch w.mt = some (first, sizes)) :
    { w.mt with pieceMgr := requestPieces sizes.length first w.mt.pieceMgr : ManagedTorrent }.Ok
      (w.webSeedJobs.set slot (some (webSeedJob w.mt first sizes))) := by
  obtain ⟨hne, -, hsizes⟩ := webSeedBatch_eq_some hbatch
  have hpos := List.length_pos_iff.2 hne
  have hfree (j : ℕ) (hl : first ≤ j) (hu : j < first + sizes.length) :
      w.mt.pieceMgr.state j = some .free := by
    rw [hsizes] at hu
    exact state_of_batchSizes hl hu
  have hpieces := PieceMgr.isSome_pieces (hfree first le_rfl (by omega))
  have hfits := (h.fits hpieces).1
  have hisBatch : w.mt.torrent.IsBatch first sizes := by
    rw [hsizes]
    exact isBatch_batchSizes (h.geometry hpieces) 0
  have hend : first + sizes.length ≤ w.mt.pieceMgr.numPieces := by
    have hlast := hisBatch.lt_numPieces (i := first + sizes.length - 1) (by omega) (by omega)
    rw [hfits.numPieces]
    omega
  have hsame : w.mt.pieceMgr.SameComplete (requestPieces sizes.length first w.mt.pieceMgr) :=
    .requests fun j hl hu => by rw [hfree j hl hu]; exact fun h => nomatch h
  exact { h with
    fits := fun _ => ⟨hsame.fits hfits, (h.fits hpieces).2⟩
    counted := h.counted.of_sameComplete hsame
    batches := fun job hjob hgen => by
      rcases List.mem_or_eq_of_mem_set hjob with hjob | hjob
      · exact h.batches job hjob hgen
      · obtain rfl := Option.some.inj hjob
        exact ⟨rfl, hisBatch, hne, List.length_replicate⟩
    pieces := fun _ => isSome_pieces_requestPieces.trans hpieces
    ledger := fun hd => (h.ledger hd).request hend hfree fun j => by
      have hset := jobHolders_set j (webSeedJob w.mt first sizes) hslot rfl
      exact hset.trans (congrArg _ (if_congr WebSeedJob.covers_iff rfl rfl)) }

/-- A torrent whose pieces are complete is done. -/
theorem ok_completeTorrent (h : w.mt.Ok w.webSeedJobs) (hstate : w.mt.state = .downloading)
    (hdone : pieceMgrIsDone w.mt.pieceMgr = true) :
    (completeTorrent w).mt.Ok (completeTorrent w).webSeedJobs := by
  obtain ⟨hok, hsame⟩ := ok_disconnectPeers h
  have hfits := (hok.fits ((local_disconnectPeers w).pieces.trans (h.pieces hstate))).1
  have hdone' : pieceMgrIsDone (disconnectPeers w).mt.pieceMgr = true := by
    rw [pieceMgrIsDone, hsame.numComplete, hsame.numPieces]
    exact hdone
  exact { hok with
    counted := hok.counted.of_isDone hfits hdone'
    pieces := TorrentState.noConfusion
    ledger := TorrentState.noConfusion }

/-- Each step of a tick keeps the invariant. -/
theorem Work.Step.ok (hstep : Step w w') (h : w.mt.Ok w.webSeedJobs) : w'.mt.Ok w'.webSeedJobs := by
  cases hstep with
  | query | takeCandidate | postpone => exact { h with }
  | discovery | connect => exact { h with }
  | report hmt =>
    rw [hmt]
    exact { h with }
  | speed => exact { h with counted := h.counted.speed }
  | peer hp hp' => exact ok_setPeer h hp hp'.sameTransfer
  | request hp => exact ok_setPeer h hp rfl
  | receive hreceives => exact ok_receive h hreceives
  | finish hstate hreceives hfull hhash hwrite =>
    exact ok_finishPiece (ok_receive h hreceives) hstate (getElem?_setPeer hreceives.peer _) rfl hhash
      hwrite
  | reject hreceives => exact ok_disconnectPeer _ (ok_receive h hreceives)
  | writeFailed errorType errorMsg hreceives hfull hhash hwrite =>
    have hok := ok_receive h hreceives
    refine ok_disconnectPeer _ { hok with
      counted := (hok.counted.write hhash _).of_state TorrentState.noConfusion
        TorrentState.noConfusion
      pieces := TorrentState.noConfusion
      ledger := TorrentState.noConfusion }
  | fail =>
    exact { h with
      counted := h.counted.of_state TorrentState.noConfusion TorrentState.noConfusion
      pieces := TorrentState.noConfusion
      ledger := TorrentState.noConfusion }
  | disconnect hp => exact ok_disconnectPeer _ h
  | claim hstate hp hsock hdata hbitfield hpending hnext =>
    exact ok_claim h hstate hp hsock hdata hnext
  | webSeed hslot hbatch => exact ok_webSeed h hslot hbatch

theorem Work.Steps.ok (hsteps : Steps w w') (h : w.mt.Ok w.webSeedJobs) :
    w'.mt.Ok w'.webSeedJobs := by
  induction hsteps with
  | refl => exact h
  | tail _ hstep ih => exact hstep.ok ih

/-! ## Collection -/

namespace ManagedTorrent.Ok

variable {mt mt' : ManagedTorrent} {jobs : List (Option WebSeedJob)}

/-- What a torrent reports does not matter. -/
theorem sameTransfer (h : mt.Ok jobs) (hmt : mt.SameTransfer mt') : mt'.Ok jobs := by
  rw [hmt]
  exact { h with }

/-- A new peer holds no piece. -/
theorem addPeer (h : mt.Ok jobs) (hdata : p.pieceData = none) (hmt : addPeer p mt = some mt') :
    mt'.Ok jobs := by
  have hledger := fun hd => (h.ledger hd).addPeer hdata hmt
  obtain ⟨peers, active, rfl⟩ := addPeer_eq hmt
  exact { h with ledger := hledger }

end ManagedTorrent.Ok

theorem ok_applyConnection (job : PeerConnectJob) (h : w.mt.Ok w.webSeedJobs) :
    (applyConnection job w).mt.Ok (applyConnection job w).webSeedJobs := by
  obtain ⟨queries, mt, -, heq, hsame | ⟨sock, remoteId, candidates, hadd⟩⟩ := applyConnection_eq job w
  · rw [heq]
    exact h.sameTransfer hsame
  · rw [heq]
    have hcandidates : { w.mt with peerCandidates := candidates : ManagedTorrent }.Ok w.webSeedJobs :=
      h.sameTransfer rfl
    exact hcandidates.addPeer rfl hadd

theorem ok_applyDiscovery (result : ManagedTorrent) (h : w.mt.Ok w.webSeedJobs) :
    (applyDiscovery result w).mt.Ok (applyDiscovery result w).webSeedJobs :=
  h.sameTransfer ((sameTransfer_discovered w.outcome.time result w.mt).trans rfl)

end PS5Torrent
