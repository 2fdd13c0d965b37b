import PS5Torrent.TorrentMgr.Reach
import PS5Torrent.FileIo.Contents
import PS5Torrent.Torrent.NoOverflow

/-!
# Pieces in every reachable state

The pieces of a torrent are counted right in every reachable state
(`pieces_of_reachable`), and while it downloads, a piece is requested exactly
if it has one holder (`holders_of_reachable`).
-/

namespace PS5Torrent

open Sha1 TorrentMgr

/-- The invariant of a torrent is one. -/
theorem invariant_ok : Invariant fun world mt => mt.Ok world.webSeedJobs where
  added hadded hjobs := (hadded.sound hjobs).ok
  next h := h
  op hop hsound _ := hop.ok hsound
  others hconfined hne _ h := h.of_others hne hconfined.webSeed
  turn hturn hmt _ h := hturn.ok hmt h

variable {m : TorrentMgr} {mt : ManagedTorrent}

/-- The complete pieces of a torrent are counted, marked in the bitfield and
    added up as downloaded; each was verified and written in full, and a
    torrent that is done has them all. -/
theorem pieces_of_reachable (hm : Reachable m) (hmt : mt ∈ m.torrents)
    (hfile : mt.isMagnet = false) :
    mt.pieceMgr.numComplete = (mt.pieceMgr.completePieces mt.torrent).card ∧
    (∀ i, hasBit (mt.pieceMgr.bitfield.getD []) i ↔ mt.pieceMgr.state i = some .complete) ∧
    mt.downloaded = ∑ i ∈ mt.pieceMgr.completePieces mt.torrent, torrentPieceSize mt.torrent i ∧
    mt.downloaded ≤ mt.totalSize ∧
    (mt.state = .downloading → mt.lastDownloaded ≤ mt.downloaded) ∧
    (∀ write ∈ mt.writes, sha1Hash write.data = mt.torrent.pieceHash write.index) ∧
    (∀ i, mt.pieceMgr.state i = some .complete → ∃ write ∈ mt.writes,
      write.index = i ∧ write.ok ∧ write.data.length = torrentPieceSize mt.torrent i) ∧
    (mt.state = .done → (∀ i < mt.torrent.numPieces, mt.pieceMgr.state i = some .complete) ∧
      mt.downloaded = mt.totalSize) := by
  have hok := invariant_ok.reachable hm mt hmt
  have hcounted := hok.counted
  have hg : mt.torrent.Geometry := by
    have haccepted := hok.accepted
    rw [ManagedTorrent.Accepted, hfile, if_neg Bool.false_ne_true] at haccepted
    obtain ⟨data, -, hparse⟩ := haccepted
    exact geometry_of_torrentParse hparse
  refine ⟨hcounted.numComplete, hcounted.bitfield, hcounted.downloaded_eq, ?_,
    hcounted.lastDownloaded_le, hcounted.verified, hcounted.written, fun hdone => ⟨fun i hi => ?_, ?_⟩⟩
  · rw [hok.totalSize]
    exact hcounted.downloaded_le hg
  · have hmem : i ∈ mt.pieceMgr.completePieces mt.torrent := by
      rw [hcounted.done hdone]
      exact Finset.mem_range.2 hi
    exact (Finset.mem_filter.1 hmem).2
  · rw [hcounted.downloaded_eq, hcounted.done hdone, hok.totalSize, ← hg.sum_pieceSize]
    simp only [torrentPieceSize_eq hg]

/-- The number of holders of a piece of a torrent. -/
def TorrentMgr.holders (m : TorrentMgr) (mt : ManagedTorrent) (index : ℕ) : ℕ :=
  peerHolders mt.peers index + jobHolders mt.generation m.webSeedJobs index

/-- While a torrent downloads, no piece is failed, and a piece is requested
    exactly if it has one holder; a piece that is free or complete has none. -/
theorem holders_of_reachable (hm : Reachable m) (hmt : mt ∈ m.torrents)
    (hstate : mt.state = .downloading) :
    (∀ i, mt.pieceMgr.state i ≠ some .failed) ∧
    (∀ i, mt.pieceMgr.state i = some .requested ↔ m.holders mt i = 1) ∧
    ∀ i, mt.pieceMgr.state i = some .free ∨ mt.pieceMgr.state i = some .complete →
      m.holders mt i = 0 := by
  have hledger := (invariant_ok.reachable hm mt hmt).ledger hstate
  refine ⟨hledger.failed, fun i => ?_, fun i hi => ?_⟩
  · rw [holders, hledger.holders]
    split
    case isTrue h => exact iff_of_true h rfl
    case isFalse h => exact iff_of_false h Nat.zero_ne_one
  · rw [holders, hledger.holders, if_neg]
    rcases hi with h | h
    · rw [h]
      exact fun h => nomatch h
    · rw [h]
      exact fun h => nomatch h

/-- A clock that stands at one second, where all allocations succeed and no peer says anything. -/
def calmEnv : ℕ → Outcome := fun _ => ⟨1, true, .incomplete⟩

/-! ### A peer that is served -/

/-- A torrent with a tracker. -/
def trackedTorrent : Bytes :=
  lit "d8:announce8:http://t4:infod6:lengthi3e4:name1:n12:piece lengthi2e6:pieces40:aaaaaaaaaaaaaaaaaaaabbbbbbbbbbbbbbbbbbbbee"

/-- All peers say that they have all pieces and do not choke us. -/
def talkingEnv : ℕ → Outcome := fun k =>
  ⟨1, true, .message (if k % 2 = 0 then PEER_MSG_UNCHOKE else PEER_MSG_BITFIELD) 0 0 [255]⟩

/-- A manager with a torrent whose tracker knows a peer, from which a piece is requested. -/
def servedMgr : TorrentMgr :=
  (TorrentMgr.init (sysWith []) (fun _ => []) talkingEnv).run
    [.addRaw trackedTorrent (lit "/d") [], .start 0, .tick,
      .announce 7 (some ⟨false, 60, [⟨1, 2⟩]⟩), .tick, .peerConnectDone 0 (some 5) [], .tick]

theorem reachable_servedMgr : Reachable servedMgr := ⟨_, _, _, _, rfl⟩

theorem exists_servedMgr : ∃ mt ∈ servedMgr.torrents, mt.state = .downloading ∧
    mt.activePeers = 1 := by
  have hserved : (servedMgr.torrents.any fun mt =>
      mt.state = .downloading && mt.activePeers = 1) = true := by decide +kernel
  obtain ⟨mt, hmt, h⟩ := List.any_eq_true.1 hserved
  rw [Bool.and_eq_true, decide_eq_true_eq, decide_eq_true_eq] at h
  exact ⟨mt, hmt, h⟩

/-- The piece that is requested has one holder. -/
theorem holders_of_reachable_served : ∃ mt ∈ servedMgr.torrents,
    mt.pieceMgr.state 0 = some .requested ∧ servedMgr.holders mt 0 = 1 := by
  have hrequested : ∃ mt ∈ servedMgr.torrents, mt.state = .downloading ∧
      mt.pieceMgr.state 0 = some .requested := by decide +kernel
  obtain ⟨mt, hmt, hstate, hpiece⟩ := hrequested
  exact ⟨mt, hmt, hpiece, ((holders_of_reachable reachable_servedMgr hmt hstate).2.1 0).1 hpiece⟩

end PS5Torrent
