import PS5Torrent.TorrentMgr.PeerRecords

/-!
# The bytes in buffers

`assembly_bytes` is the sum of the sizes of all buffers that peers hold, in
every reachable state, and stays below the limit (`assembly_of_reachable`).
An operation on a torrent changes the total as it changes the share of the
torrent (`Work.Balanced`).
-/

namespace PS5Torrent

open Relation Work TorrentMgr Slots

/-- The bytes in the buffers of some peers. -/
def bufferBytes (peers : List TorrentPeer) : ℕ := (peers.map TorrentPeer.bytes).sum

/-- The bytes in the buffers of all peers of all torrents. -/
def TorrentMgr.bufferBytes (m : TorrentMgr) : ℕ :=
  (m.torrents.map fun mt => PS5Torrent.bufferBytes mt.peers).sum

/-- The total is the share of a torrent and the rest, and within the limit; no
    release has taken more than there was. -/
structure Work.Balanced (rest : ℕ) (w : Work) : Prop where
  total : w.assemblyBytes = rest + bufferBytes w.mt.peers
  limit : w.assemblyBytes ≤ ASSEMBLY_LIMIT
  releases : ∀ r ∈ w.releases, r.pieceSize ≤ r.assemblyBytes

variable {w w' : Work} {rest i : ℕ} {p : TorrentPeer} {peers : List TorrentPeer}

/-! ## Peers -/

theorem TorrentPeer.bytes_of_none (h : p.pieceData = none) : p.bytes = 0 := by
  rw [bytes, h]
  rfl

theorem TorrentPeer.bytes_of_isSome (h : p.pieceData.isSome) : p.bytes = p.pieceSize := by
  rw [bytes, if_pos h]

@[simp]
theorem TorrentPeer.bytes_idle : p.idle.bytes = 0 := bytes_of_none rfl

theorem bufferBytes_set (p' : TorrentPeer) (hp : peers[i]? = some p) :
    bufferBytes (peers.set i p') + p.bytes = bufferBytes peers + p'.bytes :=
  sum_map_set_add hp

theorem bytes_le_bufferBytes (hp : peers[i]? = some p) : p.bytes ≤ bufferBytes peers :=
  List.le_sum_of_mem (List.mem_map_of_mem (List.mem_of_getElem? hp))

namespace Work.Balanced

/-- A peer that keeps its buffer. -/
theorem setPeer {p' : TorrentPeer} (h : w.Balanced rest) (hp : w.mt.peers[i]? = some p)
    (hbytes : p'.bytes = p.bytes) :
    (w.setPeer i p').Balanced rest where
  total := by
    have hset := bufferBytes_set p' hp
    have htotal := h.total
    change w.assemblyBytes = rest + bufferBytes (w.mt.peers.set i p')
    omega
  limit := h.limit
  releases := h.releases

/-- A peer that gives its buffer up. -/
theorem release (p' : TorrentPeer) (h : w.Balanced rest) (hp : w.mt.peers[i]? = some p)
    (hp' : p'.pieceData = none) :
    { w.setPeer i p' with
      assemblyBytes := p.releases w.assemblyBytes
      releases := p.logRelease w.assemblyBytes w.releases : Work }.Balanced rest := by
  have hset := bufferBytes_set p' hp
  have hle := bytes_le_bufferBytes hp
  have htotal := h.total
  have hlimit := h.limit
  rw [TorrentPeer.bytes_of_none hp', add_zero] at hset
  rw [ASSEMBLY_LIMIT] at hlimit
  rw [TorrentPeer.releases, TorrentPeer.logRelease]
  cases hdata : p.pieceData with
  | none =>
    rw [TorrentPeer.bytes_of_none hdata, add_zero] at hset
    refine ⟨?_, h.limit, h.releases⟩
    change w.assemblyBytes = rest + bufferBytes (w.mt.peers.set i p')
    rw [hset, htotal]
  | some buffer =>
    have hsize : p.bytes = p.pieceSize := TorrentPeer.bytes_of_isSome (by rw [hdata]; rfl)
    rw [if_neg (by exact Bool.false_ne_true), if_neg (by exact Bool.false_ne_true),
      sub64_of_le (by omega) (by omega)]
    refine ⟨?_, (Nat.sub_le _ _).trans h.limit, fun r hr => ?_⟩
    · change w.assemblyBytes - p.pieceSize = rest + bufferBytes (w.mt.peers.set i p')
      omega
    · rcases List.mem_cons.1 hr with rfl | hr
      · change p.pieceSize ≤ w.assemblyBytes
        omega
      · exact h.releases r hr

theorem disconnectPeer (i : ℕ) (h : w.Balanced rest) : (disconnectPeer i w).Balanced rest := by
  cases hp : w.mt.peers[i]? with
  | none =>
    rw [disconnectPeer_of_none hp]
    exact h
  | some p =>
    obtain ⟨queries, candidates, log, active, -, -, heq⟩ := disconnectPeer_eq' hp
    rw [heq]
    exact { h.release p.idle hp rfl with }

theorem disconnectPeers (h : w.Balanced rest) : (disconnectPeers w).Balanced rest := by
  rw [PS5Torrent.disconnectPeers]
  generalize List.range w.mt.peers.length = is
  induction is generalizing w with
  | nil => exact h
  | cons i is ih => exact ih (h.disconnectPeer i)

/-- A peer that receives a block. -/
theorem receive {buffer data : Bytes} (h : w.Balanced rest) (hreceives : w.Receives i p buffer data) :
    (w.setPeer i (p.received buffer data)).Balanced rest := by
  have hold : p.pieceData.isSome := by
    rw [hreceives.buffer]
    rfl
  have hnew : (p.received buffer data).pieceData.isSome := rfl
  refine h.setPeer hreceives.peer ?_
  rw [TorrentPeer.bytes_of_isSome hold, TorrentPeer.bytes_of_isSome hnew]
  rfl

/-- A peer that is given a buffer for which there is room. -/
theorem claim {size : ℕ} (p' : TorrentPeer) (h : w.Balanced rest)
    (hp : w.mt.peers[i]? = some p) (hdata : p.pieceData = none) (hp' : p'.bytes = size)
    (hroom : size ≤ sub64 ASSEMBLY_LIMIT w.assemblyBytes) :
    { w.setPeer i p' with
      assemblyBytes := toSize (w.assemblyBytes + size) : Work }.Balanced rest := by
  have hset := bufferBytes_set p' hp
  have htotal := h.total
  have hlimit := h.limit
  rw [TorrentPeer.bytes_of_none hdata, add_zero] at hset
  rw [sub64_of_le hlimit (by decide)] at hroom
  rw [ASSEMBLY_LIMIT] at hlimit hroom
  rw [toSize_of_lt (by omega)]
  refine ⟨?_, ?_, h.releases⟩
  · change w.assemblyBytes + size = rest + bufferBytes (w.mt.peers.set i p')
    omega
  · change w.assemblyBytes + size ≤ ASSEMBLY_LIMIT
    rw [ASSEMBLY_LIMIT]
    omega

end Work.Balanced

/-! ## Steps -/

theorem TorrentPeer.SameTransfer.bytes_eq {p' : TorrentPeer} (h : p.SameTransfer p') :
    p'.bytes = p.bytes := by
  rw [h]
  rfl

theorem Work.Step.balanced (hstep : Step w w') (h : w.Balanced rest) : w'.Balanced rest := by
  cases hstep with
  | query | speed | takeCandidate | postpone | connect => exact { h with }
  | fail | discovery | webSeed => exact { h with }
  | report hmt =>
    rw [hmt]
    exact { h with }
  | peer hp hp' => exact h.setPeer hp hp'.sameTransfer.bytes_eq
  | receive hreceives => exact h.receive hreceives
  | @finish i p buffer data hstate hreceives hfull hhash hwrite =>
    have hp' := getElem?_setPeer hreceives.peer (p.received buffer data)
    obtain ⟨downloaded, heq⟩ := finishPiece_eq hp' hhash hwrite
    rw [heq]
    have hwritten : ((w.setPeer i (p.received buffer data)).writePiece p.lastRequest
        (p.assembled buffer data)).2.Balanced rest := { h.receive hreceives with }
    exact { hwritten.release { (p.received buffer data).released with downloaded := downloaded }
      hp' rfl with }
  | reject hreceives => exact (h.receive hreceives).disconnectPeer _
  | writeFailed errorType errorMsg hreceives =>
    have hfailed := h.receive hreceives
    exact Balanced.disconnectPeer _ { hfailed with }
  | disconnect => exact h.disconnectPeer _
  | claim hstate hp hsock hdata hbitfield hpending hnext hsize hroom =>
    exact { h.claim (TorrentPeer.claimed _ _ _ _) hp hdata (TorrentPeer.bytes_of_isSome rfl) hroom
      with }
  | @request i now p hp =>
    have hset : (w.setPeer i (p.requested now
      (min PEER_BLOCK_SIZE (sub64 p.pieceSize p.pieceReceived)))).Balanced rest := h.setPeer hp rfl
    exact { hset with }

theorem Work.Steps.balanced (hsteps : Steps w w') (h : w.Balanced rest) : w'.Balanced rest := by
  induction hsteps with
  | refl => exact h
  | tail _ hstep ih => exact hstep.balanced ih

/-! ## Operations -/

theorem bufferBytes_eq_zero (h : ∀ p ∈ peers, p.pieceData = none) : bufferBytes peers = 0 := by
  refine List.sum_eq_zero fun n hn => ?_
  obtain ⟨p, hp, rfl⟩ := List.mem_map.1 hn
  exact TorrentPeer.bytes_of_none (h p hp)

/-- A new connection has no buffer, and a record it takes the place of had none. -/
theorem bufferBytes_addPeer {mt mt' : ManagedTorrent}
    (hclosed : ∀ p ∈ mt.peers, p.pieceData.isSome → p.sock.isSome) (hdata : p.pieceData = none)
    (hadd : addPeer p mt = some mt') : bufferBytes mt'.peers = bufferBytes mt.peers := by
  rw [addPeer] at hadd
  split at hadd
  case h_1 slot hslot =>
    obtain rfl := Option.some.inj hadd
    obtain ⟨hlt, hnone, -⟩ := List.findIdx?_eq_some_iff_getElem.1 hslot
    have hset := bufferBytes_set p (List.getElem?_eq_getElem hlt)
    have hfree : mt.peers[slot].pieceData = none := by
      refine Option.not_isSome_iff_eq_none.1 fun hsome => ?_
      have hsock := hclosed _ (List.getElem_mem hlt) hsome
      rw [Option.isNone_iff_eq_none.1 hnone] at hsock
      cases hsock
    rwa [TorrentPeer.bytes_of_none hdata, TorrentPeer.bytes_of_none hfree] at hset
  case h_2 =>
    split at hadd
    case isFalse => cases hadd
    case isTrue =>
      obtain rfl := Option.some.inj hadd
      change bufferBytes (mt.peers ++ [p]) = _
      rw [bufferBytes, List.map_append, List.sum_append, List.map_singleton, List.sum_singleton,
        TorrentPeer.bytes_of_none hdata, add_zero, bufferBytes]

namespace Work.Balanced

/-- The torrent keeps its buffers. -/
theorem of_peers (h : w.Balanced rest) (hmoved : w.toWorld.Moved w'.toWorld)
    (hpeers : w'.mt.peers = w.mt.peers) : w'.Balanced rest where
  total := by
    rw [hmoved.eq, hpeers]
    exact h.total
  limit := by
    rw [hmoved.eq]
    exact h.limit
  releases := by
    rw [hmoved.eq]
    exact h.releases

/-- A torrent that stops has no buffers any more. -/
theorem stopTorrent (h : w.Balanced rest) : (stopTorrent w).Balanced rest := by
  have hrenewed : (renewTorrent w).Balanced rest := { h with }
  have hstopped := hrenewed.disconnectPeers
  have hzero : bufferBytes (PS5Torrent.disconnectPeers (renewTorrent w)).mt.peers = 0 := by
    rw [peers_disconnectPeers]
    refine bufferBytes_eq_zero fun p hp => ?_
    obtain ⟨q, -, rfl⟩ := List.mem_map.1 hp
    rfl
  have htotal := hstopped.total
  rw [hzero] at htotal
  exact { hstopped with total := htotal }

theorem resetTorrent (h : w.Balanced rest) : (resetTorrent w).Balanced rest := by
  rw [PS5Torrent.resetTorrent]
  split
  · exact { h.stopTorrent with }
  · exact { h with }

theorem applyConnection (job : PeerConnectJob) (h : w.Balanced rest)
    (hclosed : ∀ p ∈ w.mt.peers, p.pieceData.isSome → p.sock.isSome) :
    (applyConnection job w).Balanced rest := by
  obtain ⟨queries, mt, -, heq, hsame | ⟨sock, remoteId, candidates, hadd⟩⟩ := applyConnection_eq job w
  · rw [heq, hsame]
    exact { h with }
  · have hclosed' : ∀ p ∈ ({ w.mt with peerCandidates := candidates } : ManagedTorrent).peers,
      p.pieceData.isSome → p.sock.isSome := hclosed
    have hbytes := bufferBytes_addPeer hclosed' rfl hadd
    rw [heq]
    exact { h with total := hbytes ▸ h.total }

end Work.Balanced

/-- An operation on a torrent changes the total as it changes the share of the torrent. -/
theorem Work.Op.balanced (hop : Op w w') (hsound : w.Sound)
    (hclosed : ∀ p ∈ w.mt.peers, p.pieceData.isSome → p.sock.isSome) (h : w.Balanced rest) :
    w'.Balanced rest := by
  cases hop with
  | tick hstate hsteps => exact hsteps.balanced h
  | complete => exact { h.disconnectPeers with }
  | start =>
    rcases startTorrent_cases w with ⟨heq, -⟩ | ⟨-, hopened⟩
    · rw [heq]
      exact { h with }
    · exact h.resetTorrent.of_peers hopened.world (by rw [hopened.torrent])
  | stop => exact h.stopTorrent
  | @candidates slot job =>
    have hsame := sameTransfer_addCandidates job.queue w.mt
    rw [hsame]
    exact { h with }
  | @discovery slot job =>
    have hsame := sameTransfer_discovered w.outcome.time job.result w.mt
    rw [applyDiscovery, hsame]
    exact { h with }
  | @connection slot job => exact { h.applyConnection job hclosed with }
  | webSeed hstate hslot hjob =>
    obtain ⟨first, hcommitting⟩ := committing_collect hsound hstate hslot hjob
    exact { h.of_peers hcommitting.world (by rw [hcommitting.torrent]) with }

/-! ## Runs -/

/-- The total is that of all buffers, and within the limit. -/
structure TorrentMgr.Balanced (m : TorrentMgr) : Prop where
  total : m.assemblyBytes = m.bufferBytes
  limit : m.assemblyBytes ≤ ASSEMBLY_LIMIT
  releases : ∀ r ∈ m.releases, r.pieceSize ≤ r.assemblyBytes

variable {m m' : TorrentMgr} {mt : ManagedTorrent}

theorem TorrentMgr.Move.balanced (hmove : Move m m') (hsound : m.Sound)
    (hclosed : ∀ mt ∈ m.torrents, ∀ p ∈ mt.peers, p.pieceData.isSome → p.sock.isSome)
    (h : m.Balanced) : m'.Balanced := by
  cases hmove with
  | @op i mt w hmt hop =>
    have hmem := List.mem_of_getElem? hmt
    have hle : PS5Torrent.bufferBytes mt.peers ≤ m.bufferBytes :=
      List.le_sum_of_mem (List.mem_map_of_mem hmem)
    have hbalanced : Work.Balanced (m.bufferBytes - PS5Torrent.bufferBytes mt.peers)
        ⟨m.toWorld, mt⟩ := by
      refine ⟨?_, h.limit, h.releases⟩
      rw [Nat.sub_add_cancel hle]
      exact h.total
    have hafter := hop.balanced (hsound.torrents mt hmem) (hclosed mt hmem) hbalanced
    refine ⟨?_, hafter.limit, hafter.releases⟩
    have hset := sum_map_set_add (f := fun mt => PS5Torrent.bufferBytes mt.peers) (y := w.mt) hmt
    have htotal := hafter.total
    rw [TorrentMgr.bufferBytes] at hle htotal ⊢
    change w.assemblyBytes =
      ((m.torrents.set i w.mt).map fun mt => PS5Torrent.bufferBytes mt.peers).sum
    omega
  | turn hturn => cases hturn <;> exact { h with }
  | @add mt hadded =>
    obtain ⟨t, savePath, isMagnet, magnetUri, peerId, rfl, -⟩ := hadded
    refine { h with total := h.total.trans ?_ }
    rw [TorrentMgr.bufferBytes, TorrentMgr.bufferBytes, List.map_append, List.sum_append]
    rfl
  | @remove i mt hmt hpeers =>
    refine { h with total := h.total.trans ?_ }
    have herase := sum_map_eraseIdx_add (f := fun mt => PS5Torrent.bufferBytes mt.peers) hmt
    rw [hpeers] at herase
    exact herase.symm

theorem balanced_of_reachable (hm : Reachable m) : m.Balanced := by
  refine (hm.induction (P := fun m => m.Balanced ∧
    ∀ mt ∈ m.torrents, mt.PeersOk (fun _ _ p => p.pieceData.isSome → p.sock.isSome) m.requests)
    (fun sys strerror env => ?_) fun hsound hmove ih => ?_).1
  · exact ⟨⟨rfl, Nat.zero_le _, fun r hr => nomatch hr⟩, fun mt hmt => nomatch hmt⟩
  · exact ⟨hmove.balanced hsound ih.2 ih.1,
      peerInvariant_connected.invariant.move hmove hsound ih.2⟩

/-- The count of bytes in buffers is their sum over all peer records of all
    torrents, is within the limit, and is zero when no torrent has a connected
    peer; no release has subtracted more than the count. -/
theorem assembly_of_reachable (hm : Reachable m) :
    m.assemblyBytes = (m.torrents.map fun mt =>
      (mt.peers.map fun p => if p.pieceData.isSome then p.pieceSize else 0).sum).sum ∧
    m.assemblyBytes ≤ ASSEMBLY_LIMIT ∧
    ((∀ mt ∈ m.torrents, ∀ p ∈ mt.peers, p.sock = none) → m.assemblyBytes = 0) ∧
    ∀ r ∈ m.releases, r.pieceSize ≤ r.assemblyBytes := by
  have hbalanced := balanced_of_reachable hm
  refine ⟨hbalanced.total, hbalanced.limit, fun hnone => ?_, hbalanced.releases⟩
  rw [hbalanced.total]
  refine List.sum_eq_zero fun n hn => ?_
  obtain ⟨mt, hmt, rfl⟩ := List.mem_map.1 hn
  refine bufferBytes_eq_zero fun p hp => Option.not_isSome_iff_eq_none.1 fun hsome => ?_
  have hsock := peerInvariant_connected.reachable hm mt hmt p hp hsome
  rw [hnone mt hmt p hp] at hsock
  cases hsock

theorem assembly_of_reachable_served :
    servedMgr.assemblyBytes = 2 ∧ servedMgr.assemblyBytes = (servedMgr.torrents.map fun mt =>
      (mt.peers.map fun p => if p.pieceData.isSome then p.pieceSize else 0).sum).sum :=
  ⟨by decide +kernel, (assembly_of_reachable reachable_servedMgr).1⟩

end PS5Torrent
