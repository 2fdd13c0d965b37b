import PS5Torrent.TorrentMgr.State

/-!
# Peers

The part of `torrent_mgr.c` that downloads pieces from connected peers: the
table of candidate addresses, the release of a piece and of a peer, and
`process_peer`, which handles up to eight messages of a peer and then requests
the next block from it.

A function that makes `process_peer` return says so by `false`.
-/

namespace PS5Torrent

open Sha1

/-! ## Candidates -/

/-- A peer with this address is connected. -/
def peerIsConnected (mt : ManagedTorrent) (addr : PeerAddr) : Bool :=
  mt.peers.any fun p => p.sock.isSome && p.addr = addr

/-- The index of the candidate with this address. -/
def findCandidate (mt : ManagedTorrent) (addr : PeerAddr) : Option ℕ :=
  mt.peerCandidates.findIdx? fun c => c.addr = addr

/-- The seconds to wait after a number of failures in a row. -/
def retryDelay (failures : ℕ) : ℕ :=
  min 300 (30 <<< if failures > 4 then 4 else if failures ≠ 0 then failures - 1 else 0)

/-- The candidate after one more failure at a time. -/
def PeerCandidate.failed (c : PeerCandidate) (now : ℕ) : PeerCandidate :=
  let failures := if c.failures < 5 then c.failures + 1 else c.failures
  { c with failures, retryAfter := now + retryDelay failures }

/-- Add an entry to the log of the generation. -/
def ManagedTorrent.log (mt : ManagedTorrent) (entry : PeerLog) : ManagedTorrent :=
  { mt with peerLog := entry :: mt.peerLog }

/-- Update the candidate at an index. -/
def ManagedTorrent.modifyCandidate (mt : ManagedTorrent) (i : ℕ)
    (f : PeerCandidate → PeerCandidate) : ManagedTorrent :=
  { mt with peerCandidates := mt.peerCandidates.modify i f }

def recordPeerFailure (addr : PeerAddr) (w : Work) : Work :=
  match findCandidate w.mt addr with
  | none => w
  | some i =>
    { w.next with
      mt := (w.mt.modifyCandidate i (·.failed w.outcome.time)).log (.failed addr w.outcome.time) }

/-- Update the candidate with an address, if there is one. -/
def ManagedTorrent.updateCandidate (mt : ManagedTorrent) (addr : PeerAddr)
    (f : PeerCandidate → PeerCandidate) : ManagedTorrent :=
  match findCandidate mt addr with
  | none => mt
  | some i => mt.modifyCandidate i f

/-- Forget the failures of a peer that delivered a piece. -/
def clearFailures (addr : PeerAddr) (mt : ManagedTorrent) : ManagedTorrent :=
  (mt.updateCandidate addr fun c => { c with failures := 0, retryAfter := 0 }).log (.verified addr)

/-- The candidate to replace in a full table: of those that failed and are idle,
    the first of those that failed most. -/
def replacedCandidate (mt : ManagedTorrent) : Option ℕ :=
  (List.range mt.peerCandidates.length).foldl (fun slot i =>
    match mt.peerCandidates[i]? with
    | none => slot
    | some c =>
      if !c.connecting && c.failures ≠ 0 && !peerIsConnected mt c.addr &&
          (slot.bind (mt.peerCandidates[·]?)).all (fun c' => c.failures > c'.failures) then some i
      else slot) none

/-- Put an address in the place of a candidate. -/
def replaceCandidate (slot : ℕ) (addr : PeerAddr) (mt : ManagedTorrent) : ManagedTorrent :=
  match mt.peerCandidates[slot]? with
  | none => mt
  | some c => (mt.modifyCandidate slot fun _ => ⟨addr, 0, 0, false⟩).log (.replaced c.addr)

def addCandidate (addr : PeerAddr) (mt : ManagedTorrent) : ManagedTorrent :=
  if addr.ip = 0 || addr.ip = 2 ^ 32 - 1 || addr.port = 0 || (findCandidate mt addr).isSome then mt
  else if mt.peerCandidates.length = MAX_TRACKER_PEERS then
    match replacedCandidate mt with
    | none => mt
    | some slot => replaceCandidate slot addr mt
  else { mt with peerCandidates := mt.peerCandidates ++ [⟨addr, 0, 0, false⟩] }

/-! ## Release -/

/-- A peer record without its piece. -/
def TorrentPeer.released (p : TorrentPeer) : TorrentPeer :=
  { p with pieceData := none, pieceSize := 0, pieceReceived := 0, pendingLength := 0 }

/-- The pieces, where that of a peer is freed unless it is complete. -/
def TorrentPeer.freed (p : TorrentPeer) (pm : PieceMgr) : PieceMgr :=
  if pm.pieces.isSome && p.lastRequest < pm.numPieces &&
    pm.state p.lastRequest ≠ some .complete then pm.setState p.lastRequest .free
  else pm

/-- Free the piece a peer holds, and its buffer. -/
def releasePiece (i : ℕ) (w : Work) : Work :=
  match w.mt.peers[i]? with
  | none => w
  | some p =>
    if p.pieceData.isNone then w.setPeer i p.released
    else
      { w.setPeer i p.released with
        mt.pieceMgr := p.freed w.mt.pieceMgr
        assemblyBytes := sub64 w.assemblyBytes p.pieceSize
        releases := ⟨w.assemblyBytes, p.pieceSize⟩ :: w.releases }

/-- Close the socket of a peer, if it is open. -/
def closePeer (i : ℕ) (w : Work) : Work :=
  match w.mt.peers[i]? with
  | none => w
  | some p =>
    if p.sock.isNone then w
    else
      let w := if w.mt.state = .downloading then recordPeerFailure p.addr w else w
      { w.setPeer i { p with sock := none } with mt.activePeers := w.mt.activePeers - 1 }

/-- Drop the bitfield of a peer. -/
def dropBitfield (i : ℕ) (w : Work) : Work :=
  match w.mt.peers[i]? with
  | none => w
  | some p => w.setPeer i { p with bitfield := none }

def disconnectPeer (i : ℕ) (w : Work) : Work := dropBitfield i (releasePiece i (closePeer i w))

/-! ## Messages -/

/-- Stop the torrent with an error. -/
def Work.fail (w : Work) (errorType : TorrentError) (errorMsg : Bytes) : Work :=
  { w with mt.state := .error, mt.errorType := errorType, mt.errorMsg := snprintf 256 errorMsg }

/-- Work on a peer stops the torrent with an error. -/
def Work.failTransfer (w : Work) (errorType : TorrentError) (errorMsg : Bytes) : Work :=
  { w.fail errorType errorMsg with failures := w.mt.generation :: w.failures }

/-- Count a piece that a peer has delivered. -/
def countPiece (i : ℕ) (p : TorrentPeer) (data : Bytes) (index : ℕ) (w : Work) : Work :=
  { w with
    mt.pieceMgr := (pieceMgrComplete w.mt.pieceMgr index data).2
    mt.downloaded := toSize (w.mt.downloaded + p.pieceSize) : Work }.setPeer i
      { p with downloaded := toSize (p.downloaded + p.pieceSize) }

/-- The end of a piece: it is verified, written and counted as downloaded. -/
def finishPiece (i : ℕ) (p : TorrentPeer) (data : Bytes) (index : ℕ) (w : Work) : Bool × Work :=
  if sha1Hash data ≠ w.mt.torrent.pieceHash index then (false, disconnectPeer i w)
  else
    let (ok, w) := w.writePiece index data
    if !ok then
      let errorMsg := lit "Failed to write downloaded piece (errno=" ++ Decimal.print w.sys.errno ++
        lit ")"
      (false, disconnectPeer i (w.failTransfer .writeFailed errorMsg))
    else
      let w := countPiece i p data index w
      (true, releasePiece i { w with mt := clearFailures p.addr w.mt })

/-- A `bitfield` or `have` message. -/
def onAvailability (i : ℕ) (p : TorrentPeer) (type : ℤ) (index : ℕ) (data : Bytes) (w : Work) :
    Bool × Work :=
  let needed := (w.mt.torrent.numPieces + 7) / 8
  if (type = PEER_MSG_BITFIELD && data.length ≠ needed) ||
      (type = PEER_MSG_HAVE && index ≥ w.mt.torrent.numPieces) then (false, disconnectPeer i w)
  else
    let update (bitfield : Bytes) := if type = PEER_MSG_BITFIELD then data else setBit bitfield index
    match p.bitfield with
    | some bitfield => (true, w.setPeer i { p with bitfield := some (update bitfield) })
    | none =>
      if !w.outcome.succeeds then (false, disconnectPeer i w.next)
      else (true, w.next.setPeer i { p with bitfield := some (update (List.replicate needed 0)) })

/-- The request that is outstanding. -/
def TorrentPeer.pending (p : TorrentPeer) : BlockRequest :=
  ⟨p.sock, p.lastRequest, p.pieceReceived, p.pendingLength⟩

/-- A peer record after a block of its piece. -/
def TorrentPeer.received (p : TorrentPeer) (buffer data : Bytes) : TorrentPeer :=
  { p with
    pieceData := some (memcpyAt buffer p.pieceReceived data)
    pieceReceived := p.pieceReceived + data.length
    pendingLength := 0
    transfer.blocks := (p.pending, data) :: p.transfer.blocks }

/-- A `piece` message: only the block that was asked for is taken. -/
def onPiece (i : ℕ) (p : TorrentPeer) (now index begin : ℕ) (data : Bytes) (w : Work) : Bool × Work :=
  match p.pieceData with
  | none => (true, w)
  | some buffer =>
    if p.pendingLength = 0 then (true, w)
    else if index ≠ p.lastRequest ∨ begin ≠ p.pieceReceived then (true, w)
    else if data.length ≠ p.pendingLength ∨ data.length > sub64 p.pieceSize p.pieceReceived then
      (false, disconnectPeer i w)
    else
      let p' := p.received buffer data
      let w := { w.setPeer i p' with mt.lastProgressTime := now }
      if p'.pieceReceived = p'.pieceSize then
        finishPiece i p' ((memcpyAt buffer begin data).take p'.pieceSize) index w
      else (true, w)

/-- One message. -/
def onMessage (i : ℕ) (p : TorrentPeer) (now : ℕ) (type : ℤ) (index begin : ℕ) (data : Bytes)
    (w : Work) : Bool × Work :=
  if type = PEER_MSG_CHOKE then (true, w.setPeer i { p with choked := true, pendingLength := 0 })
  else if type = PEER_MSG_UNCHOKE then (true, w.setPeer i { p with choked := false })
  else if type = PEER_MSG_BITFIELD ∨ type = PEER_MSG_HAVE then onAvailability i p type index data w
  else if type = PEER_MSG_PIECE then onPiece i p now index begin data w
  else (true, w)

/-- A peer record after a sign of life. -/
def TorrentPeer.active (p : TorrentPeer) (now : ℕ) : TorrentPeer := { p with lastActivity := now }

/-- The loop over the messages, of which there may be `n` more. -/
def peerEvents (i now : ℕ) : ℕ → Work → Bool × Work
  | 0, w => (true, w)
  | n + 1, w =>
    match w.mt.peers[i]? with
    | none => (true, w)
    | some p =>
      match w.outcome.event with
      | .incomplete => (true, w.next)
      | .error => (false, disconnectPeer i w.next)
      | .message type index begin data =>
        let p := p.active now
        match onMessage i p now type index begin data (w.next.setPeer i p) with
        | (true, w) => peerEvents i now n w
        | (false, w) => (false, w)

/-! ## Requests -/

/-- A peer record at the start of a piece of a state. -/
def TorrentPeer.claimed (p : TorrentPeer) (state : Option PieceState) (next size : ℕ) :
    TorrentPeer :=
  { p with
    pieceData := some (List.replicate size 0)
    pieceSize := size
    pieceReceived := 0
    lastRequest := next
    transfer := ⟨state, p.bitfield, []⟩ }

/-- Begin the next piece that the peer has, if it holds none. -/
def claimPiece (i : ℕ) (p : TorrentPeer) (w : Work) : Bool × Work :=
  if p.pieceData.isSome then (true, w)
  else
    match pieceMgrGetNext w.mt.pieceMgr p.bitfield with
    | none => (false, w)
    | some next =>
      let size := nextPieceSize w.mt.torrent next
      if size > ASSEMBLY_LIMIT then
        (false, w.failTransfer .parseFailed (lit "Piece size exceeds the 64 MiB assembly limit"))
      else if size > sub64 ASSEMBLY_LIMIT w.assemblyBytes then (false, w)
      else if !w.outcome.succeeds then (false, disconnectPeer i w.next)
      else
        (true, { w.next.setPeer i (p.claimed (w.mt.pieceMgr.state next) next size) with
          assemblyBytes := toSize (w.assemblyBytes + size)
          mt.pieceMgr := pieceMgrRequest w.mt.pieceMgr next })

/-- A peer record after a request. -/
def TorrentPeer.requested (p : TorrentPeer) (now length : ℕ) : TorrentPeer :=
  { p with pendingLength := length, requestTime := now }

/-- A request is sent to a peer. -/
def sendRequest (i : ℕ) (p : TorrentPeer) (now : ℕ) (w : Work) : Work :=
  let length := min PEER_BLOCK_SIZE (sub64 p.pieceSize p.pieceReceived)
  { w.setPeer i (p.requested now length) with
    requests := ⟨p, ⟨p.sock, p.lastRequest, p.pieceReceived, length⟩⟩ :: w.requests }

/-- Request the next block of the piece a peer holds. -/
def requestBlock (i now : ℕ) (w : Work) : Work :=
  match w.mt.peers[i]? with
  | none => w
  | some p => if !w.outcome.succeeds then disconnectPeer i w.next else sendRequest i p now w.next

/-- The end of `process_peer`, after the messages. -/
def requestNext (i now : ℕ) (w : Work) : Work :=
  match w.mt.peers[i]? with
  | none => w
  | some p =>
    if p.choked || p.pendingLength ≠ 0 || p.bitfield.isNone then w
    else
      match claimPiece i p w with
      | (true, w) => requestBlock i now w
      | (false, w) => w

/-- Drop a peer that has not done its part in time, or else serve it. -/
def servePeer (i now : ℕ) (p : TorrentPeer) (w : Work) : Work :=
  if p.choked && p.pendingLength = 0 && sub64 now p.lastActivity ≥ CHOKED_PEER_TIMEOUT then
    disconnectPeer i w
  else if (p.pendingLength ≠ 0 && sub64 now p.requestTime ≥ 60) ||
      sub64 now p.lastActivity ≥ 180 then disconnectPeer i w
  else
    match peerEvents i now 8 w with
    | (true, w) => requestNext i now w
    | (false, w) => w

def processPeer (i : ℕ) (w : Work) : Work :=
  match w.mt.peers[i]? with
  | none => w
  | some p =>
    if p.sock.isNone || w.mt.state ≠ .downloading then w
    else
      let now := w.outcome.time
      let p := if p.lastActivity = 0 then p.active now else p
      servePeer i now p (w.next.setPeer i p)

end PS5Torrent
