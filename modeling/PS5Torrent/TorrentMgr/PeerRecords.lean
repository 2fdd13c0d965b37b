import PS5Torrent.TorrentMgr.Holders

/-!
# Peer records

What a peer record says of its own connection, its own piece and the requests
sent is kept by all that happens to the record (`PeerInvariant`), and so holds
of every peer in every reachable state (`PeerInvariant.reachable`).
-/

namespace PS5Torrent

open Sha1 Relation Work TorrentMgr

/-- A property of a peer record of a torrent that all that happens to the record keeps. -/
structure PeerInvariant (Q : List SentRequest → Torrent → TorrentPeer → Prop) : Prop where
  mono : ∀ {sent sent' : List SentRequest} {t : Torrent} {p : TorrentPeer}, sent <:+ sent' →
    Q sent t p → Q sent' t p
  connection : ∀ {sent : List SentRequest} {t : Torrent} (sock : ℕ) (addr : PeerAddr)
    (remoteId : Bytes) (now : ℕ), Q sent t (.ofConnection sock addr remoteId now)
  idle : ∀ {sent : List SentRequest} {t : Torrent} (p : TorrentPeer), Q sent t p.idle
  update : ∀ {sent : List SentRequest} {t : Torrent} {p p' : TorrentPeer}, p.Update t p' →
    Q sent t p → Q sent t p'
  receive : ∀ {w : Work} {i : ℕ} {p : TorrentPeer} {buffer data : Bytes},
    w.Receives i p buffer data → p.pieceReceived + data.length ≠ p.pieceSize →
      Q w.requests w.mt.torrent p → Q w.requests w.mt.torrent (p.received buffer data)
  finish : ∀ {sent : List SentRequest} {t : Torrent} {p : TorrentPeer} (buffer data : Bytes)
    (downloaded : ℕ), Q sent t p →
      Q sent t { (p.received buffer data).released with downloaded := downloaded }
  claim : ∀ {w : Work} {p : TorrentPeer} {next : ℕ}, w.mt.Ok w.webSeedJobs →
    w.mt.state = .downloading → p.sock.isSome → p.bitfield.isSome → p.pendingLength = 0 →
    pieceMgrGetNext w.mt.pieceMgr p.bitfield = some next →
    nextPieceSize w.mt.torrent next ≤ ASSEMBLY_LIMIT → Q w.requests w.mt.torrent p →
      Q w.requests w.mt.torrent
        (p.claimed (w.mt.pieceMgr.state next) next (nextPieceSize w.mt.torrent next))
  request : ∀ {w : Work} {i : ℕ} {p : TorrentPeer} (now : ℕ), p.pendingLength = 0 →
    p.pieceData.isSome → Q w.requests w.mt.torrent p →
      Q (sendRequest i p now w).requests w.mt.torrent
        (p.requested now (min PEER_BLOCK_SIZE (sub64 p.pieceSize p.pieceReceived)))

/-- All peer records of the torrent have the property. -/
def ManagedTorrent.PeersOk (Q : List SentRequest → Torrent → TorrentPeer → Prop)
    (sent : List SentRequest) (mt : ManagedTorrent) : Prop :=
  ∀ p ∈ mt.peers, Q sent mt.torrent p

variable {Q : List SentRequest → Torrent → TorrentPeer → Prop} {sent : List SentRequest}
  {w w' : Work} {i : ℕ}

/-! ## Steps -/

theorem peersOk_set {peers : List TorrentPeer} {t : Torrent} {p' : TorrentPeer}
    (h : ∀ p ∈ peers, Q sent t p) (hp' : Q sent t p') : ∀ p ∈ peers.set i p', Q sent t p := by
  intro p hp
  rcases List.mem_or_eq_of_mem_set hp with hp | rfl
  exacts [h p hp, hp']

namespace ManagedTorrent.PeersOk

variable {mt mt' : ManagedTorrent}

theorem addPeer {p : TorrentPeer} (h : mt.PeersOk Q sent) (hp : Q sent mt.torrent p)
    (hadd : addPeer p mt = some mt') : mt'.PeersOk Q sent := by
  rw [PS5Torrent.addPeer] at hadd
  split at hadd
  case h_1 =>
    obtain rfl := Option.some.inj hadd
    exact peersOk_set h hp
  case h_2 =>
    split at hadd
    case isFalse => cases hadd
    case isTrue =>
      obtain rfl := Option.some.inj hadd
      intro q hq
      rcases List.mem_append.1 hq with hq | hq
      · exact h q hq
      · rw [List.mem_singleton.1 hq]
        exact hp

theorem sameTransfer (h : mt.PeersOk Q sent) (hmt : mt.SameTransfer mt') : mt'.PeersOk Q sent := by
  rw [hmt]
  exact h

end ManagedTorrent.PeersOk

namespace PeerInvariant

variable (hQ : PeerInvariant Q)

include hQ

/-- Whatever else has happened to the record of a peer, it is idle once the peer
    is disconnected. -/
theorem disconnectPeer_set {p' : TorrentPeer} (h : w.mt.PeersOk Q w.requests)
    (hpeers : w'.mt.peers = w.mt.peers.set i p') (htorrent : w'.mt.torrent = w.mt.torrent)
    (hsent : w'.requests = w.requests) :
    (disconnectPeer i w').mt.PeersOk Q (disconnectPeer i w').requests := by
  intro p hp
  rw [(torrent_disconnectPeer i w').1, (torrent_disconnectPeer i w').2, htorrent, hsent]
  rw [peers_disconnectPeer, hpeers] at hp
  obtain ⟨j, hj⟩ := List.mem_iff_getElem?.1 hp
  rw [List.getElem?_modify] at hj
  obtain ⟨q, hq, rfl⟩ := Option.map_eq_some_iff.1 hj
  split
  case isTrue => exact hQ.idle q
  case isFalse hne =>
    rw [List.getElem?_set_ne hne] at hq
    exact h q (List.mem_of_getElem? hq)

theorem disconnectPeer (i : ℕ) (h : w.mt.PeersOk Q w.requests) :
    (disconnectPeer i w).mt.PeersOk Q (disconnectPeer i w).requests := by
  cases hp : w.mt.peers[i]? with
  | none =>
    rw [disconnectPeer_of_none hp]
    exact h
  | some p =>
    obtain ⟨hlt, hget⟩ := List.getElem?_eq_some_iff.1 hp
    have hset : w.mt.peers = w.mt.peers.set i p := by rw [← hget, List.set_getElem_self]
    exact hQ.disconnectPeer_set h hset rfl rfl

theorem disconnectPeers (h : w.mt.PeersOk Q w.requests) :
    (disconnectPeers w).mt.PeersOk Q (disconnectPeers w).requests := by
  rw [PS5Torrent.disconnectPeers]
  generalize List.range w.mt.peers.length = is
  induction is generalizing w with
  | nil => exact h
  | cons i is ih => exact ih (hQ.disconnectPeer i h)

theorem step (hstep : Step w w') (hok : w.mt.Ok w.webSeedJobs) (h : w.mt.PeersOk Q w.requests) :
    w'.mt.PeersOk Q w'.requests := by
  cases hstep with
  | query | speed | takeCandidate | postpone | connect => exact h
  | fail | discovery | webSeed => exact h
  | report hmt =>
    rw [hmt]
    exact h
  | peer hp hp' => exact peersOk_set h (hQ.update hp' (h _ (List.mem_of_getElem? hp)))
  | receive hreceives hmore =>
    have hp' := hQ.receive hreceives hmore (h _ (List.mem_of_getElem? hreceives.peer))
    exact peersOk_set h hp'
  | @finish i p buffer data hstate hreceives hfull hhash hwrite =>
    obtain ⟨downloaded, heq⟩ := finishPiece_eq
      (getElem?_setPeer hreceives.peer (p.received buffer data)) hhash hwrite
    have hp' := hQ.finish buffer data downloaded (h p (List.mem_of_getElem? hreceives.peer))
    rw [heq]
    change ∀ q ∈ (w.mt.peers.set i _).set i _, Q w.requests w.mt.torrent q
    rw [List.set_set]
    exact peersOk_set h hp'
  | reject hreceives => exact hQ.disconnectPeer_set h rfl rfl rfl
  | writeFailed => exact hQ.disconnectPeer_set h rfl rfl rfl
  | disconnect => exact hQ.disconnectPeer _ h
  | claim hstate hp hsock hdata hbitfield hpending hnext hsize =>
    exact peersOk_set h (hQ.claim hok hstate hsock hbitfield hpending hnext hsize
      (h _ (List.mem_of_getElem? hp)))
  | @request i now p hp hchoked hpending hdata =>
    have hp' := hQ.request (i := i) now hpending hdata (h _ (List.mem_of_getElem? hp))
    exact peersOk_set (fun q hq => hQ.mono (List.suffix_cons _ _) (h q hq)) hp'

theorem steps (hsteps : Steps w w') (hok : w.mt.Ok w.webSeedJobs) (h : w.mt.PeersOk Q w.requests) :
    w'.mt.PeersOk Q w'.requests := by
  induction hsteps with
  | refl => exact h
  | tail hfirst hstep ih => exact hQ.step hstep (Steps.ok hfirst hok) ih

/-! ## Operations -/

theorem applyConnection (job : PeerConnectJob) (h : w.mt.PeersOk Q w.requests) :
    (applyConnection job w).mt.PeersOk Q (applyConnection job w).requests := by
  obtain ⟨queries, mt, -, heq, hsame | ⟨sock, remoteId, candidates, hadd⟩⟩ := applyConnection_eq job w
  · rw [heq]
    exact h.sameTransfer hsame
  · rw [heq]
    have hcandidates : { w.mt with peerCandidates := candidates }.PeersOk Q w.requests := h
    exact hcandidates.addPeer (hQ.connection sock job.addr remoteId w.outcome.time) hadd

omit hQ in
theorem stopTorrent (w : Work) (sent : List SentRequest) : (stopTorrent w).mt.PeersOk Q sent := by
  obtain ⟨queries, bytes, releases, pm, -, heq⟩ := stopTorrent_eq w
  rw [heq]
  exact fun p hp => nomatch hp

theorem op (hop : Op w w') (hsound : w.Sound) (h : w.mt.PeersOk Q w.requests) :
    w'.mt.PeersOk Q w'.requests := by
  cases hop with
  | tick hstate hsteps => exact hQ.steps hsteps hsound.ok h
  | complete => exact hQ.disconnectPeers h
  | start =>
    rcases startTorrent_cases w with ⟨heq, -⟩ | ⟨-, hopened⟩
    · rw [heq]
      exact h
    · rw [hopened.torrent, hopened.world.eq]
      rw [resetTorrent]
      split
      · exact stopTorrent w _
      · exact h
  | stop => exact stopTorrent w _
  | @candidates slot job => exact h.sameTransfer (sameTransfer_addCandidates job.queue w.mt)
  | @discovery slot job =>
    exact h.sameTransfer (.trans (sameTransfer_discovered w.outcome.time job.result w.mt) rfl)
  | @connection slot job => exact hQ.applyConnection job h
  | @webSeed slot job hstate hslot hjob =>
    obtain ⟨first, hcommitting⟩ := committing_collect hsound hstate hslot hjob
    have hsent : (applyWebSeed job w).requests = w.requests := by rw [hcommitting.world.eq]
    change (applyWebSeed job w).mt.PeersOk Q (applyWebSeed job w).requests
    rw [hsent, hcommitting.torrent]
    exact h

theorem invariant : Invariant fun world mt => mt.PeersOk Q world.requests where
  added hadded _ p hp := by
    obtain ⟨t, savePath, isMagnet, magnetUri, peerId, rfl, -⟩ := hadded
    cases hp
  next h := h
  op := hQ.op
  others hconfined _ _ h p hp := hQ.mono hconfined.world.requests (h p hp)
  turn hturn _ _ h := by cases hturn <;> exact h

/-- The property holds of every peer record in every reachable state. -/
theorem reachable {m : TorrentMgr} (hm : Reachable m) :
    ∀ mt ∈ m.torrents, mt.PeersOk Q m.requests :=
  hQ.invariant.reachable hm

end PeerInvariant

/-! ## Sockets -/

/-- A peer with a buffer is connected. -/
theorem peerInvariant_connected :
    PeerInvariant fun _ _ p => p.pieceData.isSome → p.sock.isSome where
  mono _ h := h
  connection _ _ _ _ _ := rfl
  idle _ h := absurd h Bool.false_ne_true
  update hp' h := by
    rw [hp'.sameTransfer]
    exact h
  receive hreceives _ h _ := h (by rw [hreceives.buffer]; rfl)
  finish _ _ _ _ h := absurd h Bool.false_ne_true
  claim _ _ hsock _ _ _ _ _ _ := hsock
  request _ _ _ h := h

end PS5Torrent
