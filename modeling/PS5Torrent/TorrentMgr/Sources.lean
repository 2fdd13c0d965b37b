import PS5Torrent.TorrentMgr.Holders
import PS5Torrent.TorrentMgr.Commit

/-!
# The two sources of a piece

A piece comes from a peer or from a web seed, and either way is verified,
written and counted: in `finishPiece`, the end of `process_peer`, or in
`collect_web_seed`, as a batch of one piece. Both lead to the same record as
long as the piece is written to disk (`commits_agree_iff`). If it is not, the
first stops the torrent with an error, and the second only frees the piece,
which is then fetched again.
-/

namespace PS5Torrent

open Sha1 Work Effect TorrentMgr

/-- Two records tell the same of a download and of one of its pieces. -/
structure ManagedTorrent.Agrees (mt mt' : ManagedTorrent) (index : ℕ) : Prop where
  state : mt.state = mt'.state
  errorType : mt.errorType = mt'.errorType
  piece : mt.pieceMgr.state index = mt'.pieceMgr.state index
  numComplete : mt.pieceMgr.numComplete = mt'.pieceMgr.numComplete
  bitfield : mt.pieceMgr.bitfield = mt'.pieceMgr.bitfield
  downloaded : mt.downloaded = mt'.downloaded

/-- A peer record that has all bytes of a piece. -/
structure TorrentPeer.HasPiece (p : TorrentPeer) (index : ℕ) (data : Bytes) : Prop where
  pieceData : p.pieceData = some data
  pieceSize : p.pieceSize = data.length
  lastRequest : p.lastRequest = index

/-- A job that has fetched one piece. -/
structure WebSeedJob.HasPiece (job : WebSeedJob) (index : ℕ) (data : Bytes) : Prop where
  firstPiece : job.firstPiece = index
  pieceSizes : job.pieceSizes = [data.length]
  data_eq : job.data = data
  ok : job.ok
  done : job.done

/-- `web_seed_jobs[slot] = job` -/
def TorrentMgr.setWebSeedJob (m : TorrentMgr) (slot : ℕ) (job : WebSeedJob) : TorrentMgr :=
  { m with webSeedJobs := m.webSeedJobs.set slot (some job) }

variable {w : Work} {i index : ℕ} {p : TorrentPeer} {data : Bytes} {job : WebSeedJob}

/-! ## The peer -/

/-- A piece that is written is complete, and counted. -/
theorem finishPiece_of_written (hp : w.mt.peers[i]? = some p) (hhas : p.HasPiece index data)
    (hfits : w.mt.pieceMgr.Fits w.mt.torrent) (hindex : index < w.mt.torrent.numPieces)
    (hhash : sha1Hash data = w.mt.torrent.pieceHash index)
    (hwrite : (w.writePiece index data).1 = true) :
    (finishPiece i p data index w).2.mt.state = w.mt.state ∧
      (finishPiece i p data index w).2.mt.errorType = w.mt.errorType ∧
      (finishPiece i p data index w).2.mt.pieceMgr =
        (pieceMgrComplete w.mt.pieceMgr index data).2 ∧
      (finishPiece i p data index w).2.mt.downloaded =
        toSize (w.mt.downloaded + data.length) := by
  obtain ⟨downloaded, heq⟩ := finishPiece_eq hp hhash hwrite
  have hcomplete : (pieceMgrComplete w.mt.pieceMgr index data).2.state index = some .complete := by
    rw [state_pieceMgrComplete hfits hindex hhash, if_pos rfl]
  have hleaves : p.leaves (pieceMgrComplete w.mt.pieceMgr index data).2 =
      (pieceMgrComplete w.mt.pieceMgr index data).2 := by
    rw [TorrentPeer.leaves, TorrentPeer.freed, hhas.lastRequest, hcomplete]
    simp
  rw [heq]
  refine ⟨rfl, rfl, hleaves, ?_⟩
  rw [← hhas.pieceSize]

/-- A piece that is not written stops the torrent with an error. -/
theorem finishPiece_of_not_written (hp : w.mt.peers[i]? = some p)
    (hhash : sha1Hash data = w.mt.torrent.pieceHash index)
    (hwrite : (w.writePiece index data).1 = false) :
    (finishPiece i p data index w).2.mt.state = .error ∧
      (finishPiece i p data index w).2.mt.errorType = .writeFailed := by
  rw [finishPiece, if_neg (not_not.2 hhash), ← Prod.mk.eta (p := w.writePiece index data), hwrite]
  dsimp only
  rw [if_pos (by decide)]
  obtain ⟨queries, candidates, log, active, -, -, heq⟩ := disconnectPeer_eq' (w := failTransfer
    (w.writePiece index data).2 .writeFailed (lit "Failed to write downloaded piece (errno=" ++
      Decimal.print (w.writePiece index data).2.sys.errno ++ lit ")")) hp
  rw [heq]
  exact ⟨rfl, rfl⟩

/-! ## The web seed -/

/-- A piece that is in hand is verified and written. -/
theorem commitPieces_singleton (hfits : w.mt.pieceMgr.Fits w.mt.torrent)
    (hheld : w.mt.pieceMgr.state index = some .requested)
    (hhash : sha1Hash data = w.mt.torrent.pieceHash index) :
    commitPieces data index 0 0 [data.length] w =
      if (w.writePiece index data).1 then
        (true, 1, { (w.writePiece index data).2 with
          mt.pieceMgr := (pieceMgrComplete w.mt.pieceMgr index data).2,
          mt.downloaded := toSize (w.mt.downloaded + data.length) })
      else
        (false, 0, { (w.writePiece index data).2 with
          mt.pieceMgr := w.mt.pieceMgr.setState index .free }) := by
  have hlt : index < w.mt.torrent.numPieces := (hfits.state index).1 (by rw [hheld]; rfl)
  have hskip : ¬(index ≥ w.mt.pieceMgr.numPieces ∨ w.mt.pieceMgr.state index = some .complete) := by
    rw [hfits.numPieces, hheld]
    simpa using hlt
  have hfst : (pieceMgrComplete w.mt.pieceMgr index data).1 = true := by
    rw [pieceMgrComplete_eq hfits hlt hhash]
  have hcall : pieceMgrComplete (w.writePiece index data).2.mt.pieceMgr index data =
      (true, (pieceMgrComplete w.mt.pieceMgr index data).2) := Prod.ext hfst rfl
  rw [commitPieces, if_neg hskip, List.drop_zero, List.take_length, commitPiece,
    if_neg (not_not.2 hhash), ← Prod.mk.eta (p := w.writePiece index data)]
  cases (w.writePiece index data).1 with
  | true =>
    dsimp only
    rw [if_neg (by decide), hcall]
    rfl
  | false => rfl

/-- The batch of one piece is that piece. -/
theorem applyWebSeed_of_hasPiece (hhas : job.HasPiece index data)
    (hfits : w.mt.pieceMgr.Fits w.mt.torrent) (hheld : w.mt.pieceMgr.state index = some .requested)
    (hhash : sha1Hash data = w.mt.torrent.pieceHash index) :
    applyWebSeed job w =
      if (w.writePiece index data).1 then
        noteProgress 1 { (w.writePiece index data).2 with
          mt.pieceMgr := (pieceMgrComplete w.mt.pieceMgr index data).2,
          mt.downloaded := toSize (w.mt.downloaded + data.length) }
      else
        { (w.writePiece index data).2 with
          mt.pieceMgr := freePieces 1 index (w.mt.pieceMgr.setState index .free) } := by
  have hlt : index < w.mt.torrent.numPieces := (hfits.state index).1 (by rw [hheld]; rfl)
  rw [applyWebSeed, hhas.firstPiece, if_neg (by rw [hfits.numPieces]; omega), if_pos hhas.ok,
    hhas.pieceSizes, hhas.data_eq, commitPieces_singleton hfits hheld hhash]
  cases (w.writePiece index data).1 with
  | true => rfl
  | false => rfl

/-! ## Both -/

variable {m : TorrentMgr} {mt : ManagedTorrent} {k slot : ℕ}

/-- The record of a torrent after a job for it is collected. -/
theorem getElem?_collectWebSeedJob (hlive : m.live mt.generation = some k)
    (hmt : m.torrents[k]? = some mt) (hslot : slot < m.webSeedJobs.length)
    (hgeneration : job.generation = mt.generation) (hdone : job.done) :
    ((m.setWebSeedJob slot job).collectWebSeedJob slot).torrents[k]? =
      some (applyWebSeed job ⟨(m.setWebSeedJob slot job).toWorld, mt⟩).mt := by
  have hlive' : (m.setWebSeedJob slot job).live job.generation = some k := hgeneration ▸ hlive
  have hmt' : (m.setWebSeedJob slot job).torrents[k]? = some mt := hmt
  have hget : (m.setWebSeedJob slot job).webSeedJobs[slot]?.join = some job := by
    change (m.webSeedJobs.set slot (some job))[slot]?.join = some job
    rw [List.getElem?_set_self hslot]
    rfl
  rw [collectWebSeedJob, hget]
  dsimp only
  rw [hdone, if_neg (by decide), onLive, hlive']
  dsimp only
  rw [onTorrent_eq hmt']
  exact List.getElem?_set_self (List.getElem?_eq_some_iff.1 hmt).1

/-- Committing a piece that a peer has and committing it as a batch of one piece lead to records
    that agree exactly if the piece is written to disk. -/
theorem commits_agree_iff (hlive : m.live mt.generation = some k) (hmt : m.torrents[k]? = some mt)
    (hfits : mt.pieceMgr.Fits mt.torrent) (hheld : mt.pieceMgr.state index = some .requested)
    (hhash : sha1Hash data = mt.torrent.pieceHash index)
    (hp : mt.peers[i]? = some p) (hpeer : p.HasPiece index data)
    (hslot : slot < m.webSeedJobs.length) (hgeneration : job.generation = mt.generation)
    (hjob : job.HasPiece index data) :
    (∃ mt₁ mt₂,
      (m.onTorrent k fun w => (finishPiece i p data index w).2).torrents[k]? = some mt₁ ∧
      ((m.setWebSeedJob slot job).collectWebSeedJob slot).torrents[k]? = some mt₂ ∧
      mt₁.Agrees mt₂ index) ↔
      succeeds (fileWriterWritePiece mt.fileWriter data index) m.sys := by
  obtain ⟨mt', hmt', -, hstate⟩ := live_eq_some hlive
  obtain rfl := Option.some.inj (hmt.symm.trans hmt')
  have hindex : index < mt.torrent.numPieces := (hfits.state index).1 (by rw [hheld]; rfl)
  have hpeerSide : (m.onTorrent k fun w => (finishPiece i p data index w).2).torrents[k]? =
      some (finishPiece i p data index ⟨m.toWorld, mt⟩).2.mt := by
    rw [onTorrent_eq hmt]
    exact List.getElem?_set_self (List.getElem?_eq_some_iff.1 hmt).1
  obtain ⟨w, hw⟩ : ∃ w : Work,
      w = ⟨(m.setWebSeedJob slot job).toWorld, mt⟩ := ⟨_, rfl⟩
  have hwebSeed := applyWebSeed_of_hasPiece (w := w) hjob (hw ▸ hfits) (hw ▸ hheld) (hw ▸ hhash)
  have hsucceeds : (w.writePiece index data).1 =
      succeeds (fileWriterWritePiece mt.fileWriter data index) m.sys := by rw [hw]; rfl
  rw [hpeerSide, getElem?_collectWebSeedJob hlive hmt hslot hgeneration hjob.done, ← hw]
  cases hwrite : succeeds (fileWriterWritePiece mt.fileWriter data index) m.sys with
  | true =>
    obtain ⟨hs₁, he₁, hpm₁, hd₁⟩ := finishPiece_of_written (w := ⟨m.toWorld, mt⟩) hp hpeer hfits
      hindex hhash hwrite
    rw [hwebSeed, if_pos (hsucceeds.trans hwrite)]
    subst hw
    refine iff_of_true ⟨_, _, rfl, rfl, ?_⟩ rfl
    exact ⟨hs₁, he₁, by rw [hpm₁]; rfl, by rw [hpm₁]; rfl, by rw [hpm₁]; rfl, hd₁⟩
  | false =>
    have hs₁ := (finishPiece_of_not_written (w := ⟨m.toWorld, mt⟩) hp hhash hwrite).1
    rw [hwebSeed, if_neg (by rw [hsucceeds, hwrite]; decide)]
    subst hw
    refine iff_of_false ?_ Bool.false_ne_true
    rintro ⟨mt₁, mt₂, h₁, h₂, hagrees⟩
    obtain rfl := Option.some.inj h₁
    obtain rfl := Option.some.inj h₂
    have heq : TorrentState.error = mt.state := hs₁.symm.trans hagrees.state
    rw [hstate] at heq
    cases heq

/-! ### A full disk -/

/-- A torrent with a tracker, of the one piece `xy`. -/
def onePieceTorrent : Bytes :=
  lit "d8:announce8:http://t4:infod6:lengthi2e4:name1:n12:piece lengthi2e6:pieces20:" ++
    sha1Hash (lit "xy") ++ lit "ee"

/-- A manager that has requested the piece from a peer, when calls fail as `fault` has it. -/
def requestingMgr (fault : ℕ → Option Fault) : TorrentMgr :=
  (TorrentMgr.init { sysWith [] with fault := fault } (fun _ => []) talkingEnv).run
    [.addRaw onePieceTorrent (lit "/d") [], .start 0, .tick,
      .announce 7 (some ⟨false, 60, [⟨1, 2⟩]⟩), .tick, .peerConnectDone 0 (some 5) [], .tick]

/-- The peer sends the piece. -/
def receivePiece (w : Work) : Work :=
  match w.mt.peers[0]? with
  | none => w
  | some p => w.setPeer 0 (p.received (List.replicate p.pieceSize 0) (lit "xy"))

/-- A web seed sends the piece. -/
def onePieceJob (generation : ℕ) (t : Torrent) : WebSeedJob :=
  ⟨generation, 0, [2], 2, lit "xy", t, true, true⟩

theorem reachable_requestingMgr (fault : ℕ → Option Fault) : Reachable (requestingMgr fault) :=
  ⟨_, _, _, _, rfl⟩

/-- What a peer sends changes neither the pieces nor the metainfo. -/
theorem fits_receivePiece (hm : Reachable m)
    (hmt : (m.onTorrent 0 receivePiece).torrents[0]? = some mt)
    (hpieces : mt.pieceMgr.pieces.isSome) : mt.pieceMgr.Fits mt.torrent := by
  cases hold : m.torrents[0]? with
  | none =>
    rw [onTorrent_of_none hold, hold] at hmt
    cases hmt
  | some mt₀ =>
    have hok := invariant_ok.reachable hm mt₀ (List.mem_of_getElem? hold)
    rw [onTorrent_eq hold] at hmt
    obtain rfl := Option.some.inj
      ((List.getElem?_set_self (List.getElem?_eq_some_iff.1 hold).1).symm.trans hmt)
    rw [receivePiece] at hpieces ⊢
    dsimp only at hpieces ⊢
    cases hp : mt₀.peers[0]? with
    | none =>
      rw [hp] at hpieces
      exact (hok.fits hpieces).1
    | some p =>
      rw [hp] at hpieces
      exact (hok.fits hpieces).1

/-- The manager when the piece has come from the peer. -/
def receivedMgr (fault : ℕ → Option Fault) : TorrentMgr :=
  (requestingMgr fault).onTorrent 0 receivePiece

/-- With room on the disk, both ways to commit the piece lead to the same. -/
theorem commits_agree_iff_received :
    ∃ mt p mt₁ mt₂, (receivedMgr fun _ => none).torrents[0]? = some mt ∧
      ((receivedMgr fun _ => none).onTorrent 0 fun w =>
        (finishPiece 0 p (lit "xy") 0 w).2).torrents[0]? = some mt₁ ∧
      (((receivedMgr fun _ => none).setWebSeedJob 0
        (onePieceJob mt.generation mt.torrent)).collectWebSeedJob 0).torrents[0]? = some mt₂ ∧
      mt₁.Agrees mt₂ 0 := by
  have hfacts : ∃ mt ∈ (receivedMgr fun _ => none).torrents[0]?, ∃ p ∈ mt.peers[0]?,
      (receivedMgr fun _ => none).live mt.generation = some 0 ∧ mt.pieceMgr.pieces.isSome ∧
      mt.pieceMgr.state 0 = some .requested ∧ sha1Hash (lit "xy") = mt.torrent.pieceHash 0 ∧
      p.pieceData = some (lit "xy") ∧ p.pieceSize = (lit "xy").length ∧ p.lastRequest = 0 ∧
      0 < (receivedMgr fun _ => none).webSeedJobs.length ∧
      succeeds (fileWriterWritePiece mt.fileWriter (lit "xy") 0) (receivedMgr fun _ => none).sys := by
    decide +kernel
  obtain ⟨mt, hmt, p, hp, hlive, hpieces, hheld, hhash, hdata, hsize, hlast, hslot, hwrite⟩ := hfacts
  have hfits := fits_receivePiece (reachable_requestingMgr fun _ => none) hmt hpieces
  have hjob : (onePieceJob mt.generation mt.torrent).HasPiece 0 (lit "xy") :=
    ⟨rfl, rfl, rfl, rfl, rfl⟩
  have hgeneration : (onePieceJob mt.generation mt.torrent).generation = mt.generation := rfl
  obtain ⟨mt₁, mt₂, h⟩ := (commits_agree_iff hlive hmt hfits hheld hhash hp ⟨hdata, hsize, hlast⟩
    hslot hgeneration hjob).2 hwrite
  exact ⟨mt, p, mt₁, mt₂, hmt, h⟩

/-- The disk is full once the file is open. -/
def fullDisk : ℕ → Option Fault := fun n => if n < 3 then none else some (.error 28)

/-- On a full disk, the piece from the peer stops the torrent with an error, and the same piece
    from a web seed does not. -/
theorem not_commits_agree_fullDisk :
    ∃ mt p, (receivedMgr fullDisk).torrents[0]? = some mt ∧ mt.state = .downloading ∧
      mt.pieceMgr.state 0 = some .requested ∧ sha1Hash (lit "xy") = mt.torrent.pieceHash 0 ∧
      mt.peers[0]? = some p ∧ p.HasPiece 0 (lit "xy") ∧
      (onePieceJob mt.generation mt.torrent).HasPiece 0 (lit "xy") ∧
      ¬∃ mt₁ mt₂,
        ((receivedMgr fullDisk).onTorrent 0 fun w =>
          (finishPiece 0 p (lit "xy") 0 w).2).torrents[0]? = some mt₁ ∧
        (((receivedMgr fullDisk).setWebSeedJob 0
        (onePieceJob mt.generation mt.torrent)).collectWebSeedJob 0).torrents[0]? = some mt₂ ∧
        mt₁.Agrees mt₂ 0 := by
  have hfacts : ∃ mt ∈ (receivedMgr fullDisk).torrents[0]?, ∃ p ∈ mt.peers[0]?,
      mt.state = .downloading ∧ mt.pieceMgr.state 0 = some .requested ∧
      sha1Hash (lit "xy") = mt.torrent.pieceHash 0 ∧ p.pieceData = some (lit "xy") ∧
      p.pieceSize = (lit "xy").length ∧ p.lastRequest = 0 ∧
      (((receivedMgr fullDisk).onTorrent 0 fun w =>
        (finishPiece 0 p (lit "xy") 0 w).2).torrents[0]?.map ManagedTorrent.state) = some .error ∧
      (((receivedMgr fullDisk).setWebSeedJob 0
        (onePieceJob mt.generation mt.torrent)).collectWebSeedJob 0).torrents[0]?.map
          ManagedTorrent.state = some .downloading := by
    decide +kernel
  obtain ⟨mt, hmt, p, hp, hstate, hheld, hhash, hdata, hsize, hlast, hpeer, hwebSeed⟩ := hfacts
  refine ⟨mt, p, hmt, hstate, hheld, hhash, hp, ⟨hdata, hsize, hlast⟩, ⟨rfl, rfl, rfl, rfl, rfl⟩, ?_⟩
  rintro ⟨mt₁, mt₂, h₁, h₂, hagrees⟩
  rw [h₁] at hpeer
  rw [h₂] at hwebSeed
  have heq := hagrees.state
  rw [Option.some.inj hpeer, Option.some.inj hwebSeed] at heq
  cases heq

end PS5Torrent
