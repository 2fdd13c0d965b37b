import PS5Torrent.TorrentMgr.PeerRecords

/-!
# The transfer of a piece

The buffer of a peer has, from its start, the blocks that were accepted, one
after the other, and each of them answered a request that was sent; every
request is for the next block of a piece that was free and that the peer
advertised when it was claimed (`transfers_of_reachable`).
-/

namespace PS5Torrent

open Sha1 Relation Work TorrentMgr

/-- The bytes of some blocks, the last of which is the first of the list. -/
def blockBytes : List (BlockRequest × Bytes) → Bytes
  | [] => []
  | (_, data) :: blocks => blockBytes blocks ++ data

/-- Each block answers a request that was sent, for the bytes of the piece that
    come after those of the blocks before, and inside its buffer. -/
def BlocksOk (sent : List SentRequest) (p : TorrentPeer) : List (BlockRequest × Bytes) → Prop
  | [] => True
  | (request, data) :: blocks =>
    (∃ r ∈ sent, r.request = request) ∧ request.sock = p.sock ∧ request.index = p.lastRequest ∧
      request.begin = (blockBytes blocks).length ∧ request.length = data.length ∧
      data.length ≠ 0 ∧ request.begin + data.length ≤ p.pieceSize ∧ BlocksOk sent p blocks

/-- What a peer record says of the piece that is assembled. -/
structure TorrentPeer.Assembles (sent : List SentRequest) (p : TorrentPeer) (buffer : Bytes) :
    Prop where
  length : buffer.length = p.pieceSize
  received_lt : p.pieceReceived < p.pieceSize
  received : buffer.take p.pieceReceived = blockBytes p.transfer.blocks
  blocks : BlocksOk sent p p.transfer.blocks
  free : p.transfer.state = some .free
  advertised : ∃ bitfield, p.transfer.bitfield = some bitfield ∧
    p.lastRequest / 8 < bitfield.length ∧ hasBit bitfield p.lastRequest

/-- What a peer record says of its transfer. -/
structure TorrentPeer.Transfers (sent : List SentRequest) (t : Torrent) (p : TorrentPeer) : Prop where
  bound : p.pieceReceived + p.pendingLength ≤ p.pieceSize
  pending_le : p.pendingLength ≤ PEER_BLOCK_SIZE
  size_le : p.pieceSize ≤ ASSEMBLY_LIMIT
  outstanding : p.pendingLength ≠ 0 → p.pieceData.isSome ∧ ∃ r ∈ sent, r.request = p.pending
  bitfield : ∀ bitfield, p.bitfield = some bitfield → bitfield.length = (t.numPieces + 7) / 8
  assembles : ∀ buffer, p.pieceData = some buffer → p.Assembles sent buffer

/-- A request is for the next block of a piece that was free and that the peer
    advertised when it was claimed; the peer does not choke us and has no other
    request to answer. -/
structure SentRequest.Ok (r : SentRequest) : Prop where
  unchoked : r.peer.choked = false
  pending : r.peer.pendingLength = 0
  sock : r.request.sock = r.peer.sock
  index : r.request.index = r.peer.lastRequest
  free : r.peer.transfer.state = some .free
  advertised : ∃ bitfield, r.peer.transfer.bitfield = some bitfield ∧
    hasBit bitfield r.request.index
  begin : r.request.begin = (blockBytes r.peer.transfer.blocks).length
  length_pos : 0 < r.request.length
  length_le : r.request.length ≤ min PEER_BLOCK_SIZE (r.peer.pieceSize - r.request.begin)

variable {sent sent' : List SentRequest} {t : Torrent} {p : TorrentPeer} {w w' : Work} {i : ℕ}
  {buffer data : Bytes}

/-! ## Blocks -/

theorem BlocksOk.mono (hsent : sent <:+ sent') {blocks : List (BlockRequest × Bytes)}
    (h : BlocksOk sent p blocks) : BlocksOk sent' p blocks := by
  induction blocks with
  | nil => exact h
  | cons block blocks ih =>
    obtain ⟨⟨r, hr, hrequest⟩, hsock, hindex, hbegin, hlength, hne, hle, hrest⟩ := h
    exact ⟨⟨r, hsent.subset hr, hrequest⟩, hsock, hindex, hbegin, hlength, hne, hle, ih hrest⟩

/-- The blocks are about the connection, the piece and its size. -/
theorem BlocksOk.of_peer {p' : TorrentPeer} (hsock : p'.sock = p.sock)
    (hindex : p'.lastRequest = p.lastRequest) (hsize : p'.pieceSize = p.pieceSize)
    {blocks : List (BlockRequest × Bytes)} (h : BlocksOk sent p blocks) :
    BlocksOk sent p' blocks := by
  induction blocks with
  | nil => exact h
  | cons block blocks ih =>
    obtain ⟨hr, hrsock, hrindex, hbegin, hlength, hne, hle, hrest⟩ := h
    exact ⟨hr, hrsock.trans hsock.symm, hrindex.trans hindex.symm, hbegin, hlength, hne,
      hle.trans hsize.ge, ih hrest⟩

/-- A buffer starts with what was copied to its start. -/
theorem take_memcpyAt {pos : ℕ} (h : pos ≤ buffer.length) :
    (memcpyAt buffer pos data).take (pos + data.length) = buffer.take pos ++ data := by
  have hlen : (buffer.take pos ++ data).length = pos + data.length := by
    rw [List.length_append, List.length_take, Nat.min_eq_left h]
  rw [memcpyAt, ← hlen, List.take_left]

namespace TorrentPeer

theorem Assembles.mono (hsent : sent <:+ sent') (h : p.Assembles sent buffer) :
    p.Assembles sent' buffer :=
  { h with blocks := h.blocks.mono hsent }

/-- A record without a piece. -/
theorem Transfers.empty (hsize : p.pieceSize = 0) (hreceived : p.pieceReceived = 0)
    (hpending : p.pendingLength = 0) (hdata : p.pieceData = none)
    (hbitfield : ∀ bitfield, p.bitfield = some bitfield →
      bitfield.length = (t.numPieces + 7) / 8) : p.Transfers sent t where
  bound := by
    rw [hreceived, hpending]
    exact Nat.zero_le _
  pending_le := by
    rw [hpending]
    exact Nat.zero_le _
  size_le := by
    rw [hsize]
    exact Nat.zero_le _
  outstanding h := absurd hpending h
  bitfield := hbitfield
  assembles buffer hbuffer := by
    rw [hdata] at hbuffer
    cases hbuffer

/-- The piece of a record that differs in nothing the piece depends on. -/
theorem Assembles.of_sameTransfer {p' : TorrentPeer} (hsame : p.SameTransfer p')
    (h : p.Assembles sent buffer) : p'.Assembles sent buffer := by
  rw [hsame]
  exact
    { length := h.length
      received_lt := h.received_lt
      received := h.received
      blocks := by refine h.blocks.of_peer ?_ ?_ ?_ <;> rfl
      free := h.free
      advertised := h.advertised }

/-- A message that is no block leaves the piece as it is. -/
theorem Transfers.update {p' : TorrentPeer} (hp' : p.Update t p') (h : p.Transfers sent t) :
    p'.Transfers sent t := by
  have hassembles (buffer : Bytes) (hbuffer : p.pieceData = some buffer) :=
    (h.assembles buffer hbuffer).of_sameTransfer hp'.sameTransfer
  cases hp' with
  | choke =>
    exact
      { bound := (Nat.le_add_right _ _).trans h.bound
        pending_le := Nat.zero_le _
        size_le := h.size_le
        outstanding := fun hne => absurd rfl hne
        bitfield := h.bitfield
        assembles := hassembles }
  | unchoke | active => exact { h with assembles := hassembles }
  | bitfield hlen =>
    refine { h with
      assembles := hassembles
      bitfield := fun bitfield hbitfield => ?_ }
    obtain rfl := Option.some.inj hbitfield
    rcases hlen with hlen | ⟨old, hold, hlen⟩
    · exact hlen
    · rw [hlen]
      exact h.bitfield old hold

/-- A block is put after those before. -/
theorem Transfers.receive (hreceives : w.Receives i p buffer data)
    (hmore : p.pieceReceived + data.length ≠ p.pieceSize)
    (h : p.Transfers w.requests w.mt.torrent) :
    (p.received buffer data).Transfers w.requests w.mt.torrent := by
  have hassembles := h.assembles buffer hreceives.buffer
  obtain ⟨-, r, hr, hrequest⟩ := h.outstanding hreceives.pending
  have hbound := h.bound
  have hlength := hreceives.length
  have hbytes : (blockBytes p.transfer.blocks).length = p.pieceReceived := by
    rw [← hassembles.received, List.length_take, hassembles.length]
    exact Nat.min_eq_left (Nat.le_of_lt hassembles.received_lt)
  refine
    { bound := ?_
      pending_le := Nat.zero_le _
      size_le := h.size_le
      outstanding := fun hne => absurd rfl hne
      bitfield := h.bitfield
      assembles := fun buffer' hbuffer' => ?_ }
  · change p.pieceReceived + data.length + 0 ≤ p.pieceSize
    omega
  · obtain rfl := Option.some.inj hbuffer'
    have hle : p.pieceReceived + data.length ≤ buffer.length := by
      rw [hassembles.length]
      omega
    refine
      { length := (length_memcpyAt hle).trans hassembles.length
        received_lt := lt_of_le_of_ne (hle.trans hassembles.length.le) hmore
        received := ?_
        blocks := ⟨⟨r, hr, hrequest⟩, rfl, rfl, hbytes.symm, hlength.symm, ?_, ?_, ?_⟩
        free := hassembles.free
        advertised := hassembles.advertised }
    · change (memcpyAt buffer p.pieceReceived data).take (p.pieceReceived + data.length) =
        blockBytes p.transfer.blocks ++ data
      rw [take_memcpyAt (by omega), hassembles.received]
    · rw [hlength]
      exact hreceives.pending
    · exact hle.trans hassembles.length.le
    · refine hassembles.blocks.of_peer ?_ ?_ ?_ <;> rfl

/-- A piece that is claimed is free, and the peer has it. -/
theorem Transfers.claim {next : ℕ} (hok : w.mt.Ok w.webSeedJobs)
    (hstate : w.mt.state = .downloading) (hbitfield : p.bitfield.isSome)
    (hpending : p.pendingLength = 0) (hnext : pieceMgrGetNext w.mt.pieceMgr p.bitfield = some next)
    (hsize : nextPieceSize w.mt.torrent next ≤ ASSEMBLY_LIMIT)
    (h : p.Transfers w.requests w.mt.torrent) :
    (p.claimed (w.mt.pieceMgr.state next) next (nextPieceSize w.mt.torrent next)).Transfers
      w.requests w.mt.torrent := by
  have hpieces := hok.pieces hstate
  have hnum := (hok.fits hpieces).1.numPieces
  obtain ⟨hindex, hfree, hadvertised⟩ := pieceMgrGetNext_eq_some (hok.numPieces_lt hpieces) hnext
  obtain ⟨bitfield, hsome⟩ := Option.isSome_iff_exists.1 hbitfield
  have hlen := h.bitfield bitfield hsome
  have hbyte : next / 8 < bitfield.length := by omega
  refine
    { bound := ?_
      pending_le := h.pending_le
      size_le := hsize
      outstanding := fun hne => absurd hpending hne
      bitfield := h.bitfield
      assembles := fun buffer hbuffer => ?_ }
  · change 0 + p.pendingLength ≤ _
    rw [hpending]
    exact Nat.zero_le _
  · obtain rfl := Option.some.inj hbuffer
    refine
      { length := List.length_replicate
        received_lt := ?_
        received := List.take_zero
        blocks := trivial
        free := hfree
        advertised := ⟨bitfield, hsome, hbyte, ?_⟩ }
    · change 0 < nextPieceSize w.mt.torrent next
      rw [nextPieceSize_eq (hok.geometry hpieces) (hnum ▸ hindex)]
      exact (hok.geometry hpieces).pieceSize_pos (hnum ▸ hindex)
    · rw [hsome, advertises, Bool.or_eq_true, decide_eq_true_eq] at hadvertised
      exact hadvertised.resolve_left (not_le.2 hbyte)

/-- A request is for what is missing of the piece. -/
theorem Transfers.request (now : ℕ) (hdata : p.pieceData.isSome)
    (h : p.Transfers w.requests w.mt.torrent) :
    (p.requested now (min PEER_BLOCK_SIZE (sub64 p.pieceSize p.pieceReceived))).Transfers
      (sendRequest i p now w).requests w.mt.torrent := by
  have hsize := h.size_le
  have hbound := h.bound
  rw [ASSEMBLY_LIMIT] at hsize
  have hsub : sub64 p.pieceSize p.pieceReceived = p.pieceSize - p.pieceReceived :=
    sub64_of_le (by omega) (by omega)
  rw [hsub]
  refine
    { bound := ?_
      pending_le := Nat.min_le_left _ _
      size_le := h.size_le
      outstanding := fun _ => ⟨hdata, _, List.mem_cons_self, ?_⟩
      bitfield := h.bitfield
      assembles := fun buffer hbuffer => ?_ }
  · have hmin := Nat.min_le_right PEER_BLOCK_SIZE (p.pieceSize - p.pieceReceived)
    change p.pieceReceived + min PEER_BLOCK_SIZE (p.pieceSize - p.pieceReceived) ≤ p.pieceSize
    omega
  · rw [hsub]
    rfl
  · exact ((h.assembles buffer hbuffer).mono (List.suffix_cons _ _)).of_sameTransfer rfl

end TorrentPeer

/-- What a peer record says of its transfer is kept by all that happens to it. -/
theorem peerInvariant_transfers : PeerInvariant TorrentPeer.Transfers where
  mono hsent h :=
    { h with
      outstanding := fun hne =>
        have ⟨hdata, r, hr, hrequest⟩ := h.outstanding hne
        ⟨hdata, r, hsent.subset hr, hrequest⟩
      assembles := fun buffer hbuffer => (h.assembles buffer hbuffer).mono hsent }
  connection _ _ _ _ := .empty rfl rfl rfl rfl fun _ h => nomatch h
  idle _ := .empty rfl rfl rfl rfl fun _ h => nomatch h
  update hp' h := h.update hp'
  receive hreceives hmore h := h.receive hreceives hmore
  finish _ _ _ h := .empty rfl rfl rfl rfl h.bitfield
  claim hok hstate _ hbitfield hpending hnext hsize h :=
    h.claim hok hstate hbitfield hpending hnext hsize
  request now _ hdata h := h.request now hdata

/-! ## Requests -/

/-- A request of a record that is all right is all right. -/
theorem TorrentPeer.Transfers.requestsOk (now : ℕ) (hchoked : p.choked = false)
    (hpending : p.pendingLength = 0) (hdata : p.pieceData.isSome) (h : p.Transfers sent t)
    (hw : ∀ r ∈ w.requests, r.Ok) : ∀ r ∈ (sendRequest i p now w).requests, r.Ok := by
  intro r hr
  rcases List.mem_cons.1 hr with rfl | hr
  · obtain ⟨buffer, hbuffer⟩ := Option.isSome_iff_exists.1 hdata
    have hassembles := h.assembles buffer hbuffer
    have hlt := hassembles.received_lt
    have hsize := h.size_le
    rw [ASSEMBLY_LIMIT] at hsize
    have hsub : sub64 p.pieceSize p.pieceReceived = p.pieceSize - p.pieceReceived :=
      sub64_of_le (by omega) (by omega)
    obtain ⟨bitfield, hbitfield, -, hbit⟩ := hassembles.advertised
    refine
      { unchoked := hchoked
        pending := hpending
        sock := rfl
        index := rfl
        free := hassembles.free
        advertised := ⟨bitfield, hbitfield, hbit⟩
        begin := ?_
        length_pos := ?_
        length_le := ?_ }
    · rw [← hassembles.received, List.length_take, hassembles.length]
      exact (Nat.min_eq_left (Nat.le_of_lt hlt)).symm
    · dsimp only
      rw [hsub, PEER_BLOCK_SIZE]
      exact lt_min (by decide) (Nat.sub_pos_of_lt hlt)
    · dsimp only
      rw [hsub]
  · exact hw r hr

theorem Work.Step.requestsOk (hstep : Step w w') (hpeers : w.mt.PeersOk TorrentPeer.Transfers w.requests)
    (h : ∀ r ∈ w.requests, r.Ok) : ∀ r ∈ w'.requests, r.Ok := by
  cases hstep with
  | query | speed | takeCandidate | postpone | connect | report => exact h
  | fail | discovery | webSeed | peer | receive | claim => exact h
  | finish hstate hreceives hfull hhash hwrite =>
    obtain ⟨downloaded, heq⟩ := finishPiece_eq (getElem?_setPeer hreceives.peer _) hhash hwrite
    rw [heq]
    exact h
  | disconnect | reject | writeFailed =>
    rw [(torrent_disconnectPeer _ _).2]
    exact h
  | @request i now p hp hchoked hpending hdata =>
    exact (hpeers p (List.mem_of_getElem? hp)).requestsOk now hchoked hpending hdata h

theorem Work.Steps.requestsOk (hsteps : Steps w w') (hok : w.mt.Ok w.webSeedJobs)
    (hpeers : w.mt.PeersOk TorrentPeer.Transfers w.requests) (h : ∀ r ∈ w.requests, r.Ok) :
    ∀ r ∈ w'.requests, r.Ok := by
  induction hsteps with
  | refl => exact h
  | tail hfirst hstep ih => exact hstep.requestsOk (peerInvariant_transfers.steps hfirst hok hpeers) ih

theorem Work.Op.requestsOk (hop : Op w w') (hsound : w.Sound)
    (hpeers : w.mt.PeersOk TorrentPeer.Transfers w.requests) (h : ∀ r ∈ w.requests, r.Ok) :
    ∀ r ∈ w'.requests, r.Ok := by
  cases hop with
  | tick hstate hsteps => exact Steps.requestsOk hsteps hsound.ok hpeers h
  | complete =>
    obtain ⟨queries, bytes, releases, peers, candidates, log, active, pm, -, -, heq⟩ :=
      disconnectPeers_eq w
    rw [completeTorrent, heq]
    exact h
  | start =>
    rcases startTorrent_cases w with ⟨heq, -⟩ | ⟨-, hopened⟩
    · rw [heq]
      exact h
    · have hsent : (startTorrent w).2.requests = (resetTorrent w).requests := by
        rw [hopened.world.eq]
      rw [hsent, resetTorrent]
      split
      case isTrue =>
        obtain ⟨queries, bytes, releases, pm, -, heq⟩ := stopTorrent_eq w
        rw [heq]
        exact h
      case isFalse => exact h
  | stop =>
    obtain ⟨queries, bytes, releases, pm, -, heq⟩ := stopTorrent_eq w
    rw [heq]
    exact h
  | candidates | discovery => exact h
  | @connection slot job =>
    obtain ⟨queries, mt, -, heq, -⟩ := applyConnection_eq job w
    rw [heq]
    exact h
  | @webSeed slot job hstate hslot hjob =>
    obtain ⟨first, hcommitting⟩ := committing_collect hsound hstate hslot hjob
    have hsent : (applyWebSeed job w).requests = w.requests := by rw [hcommitting.world.eq]
    change ∀ r ∈ (applyWebSeed job w).requests, r.Ok
    rw [hsent]
    exact h

variable {m m' : TorrentMgr}

theorem TorrentMgr.Move.requestsOk (hmove : Move m m') (hsound : m.Sound)
    (hpeers : ∀ mt ∈ m.torrents, mt.PeersOk TorrentPeer.Transfers m.requests)
    (h : ∀ r ∈ m.requests, r.Ok) : ∀ r ∈ m'.requests, r.Ok := by
  cases hmove with
  | @op i mt w hmt hop =>
    have hmem := List.mem_of_getElem? hmt
    exact hop.requestsOk (hsound.torrents mt hmem) (hpeers mt hmem) h
  | turn hturn => cases hturn <;> exact h
  | add | remove => exact h

variable {now : ℕ}

variable {mt : ManagedTorrent}

end PS5Torrent
