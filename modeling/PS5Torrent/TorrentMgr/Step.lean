import PS5Torrent.TorrentMgr
import PS5Torrent.TorrentMgr.Batch
import PS5Torrent.Library.Slots
import Mathlib.Logic.Relation

/-!
# What a tick consists of

The work of a tick on one torrent is a sequence of small steps (`Work.Step`):
a query of the environment, the receipt of a block, the end of a piece, the
disconnection of a peer, a scheduled job, and so on. Each step says all it
does and when it is done; an invariant is proved for the steps
(`tickTorrent_steps`).
-/

namespace PS5Torrent

open Sha1 Relation

/-- A peer record whose connection is closed. -/
def TorrentPeer.idle (p : TorrentPeer) : TorrentPeer :=
  { p.released with sock := none, bitfield := none }

/-- The pieces once a peer has released what it holds. -/
def TorrentPeer.leaves (p : TorrentPeer) (pm : PieceMgr) : PieceMgr :=
  if p.pieceData.isNone then pm else p.freed pm

/-- The peer holds the same piece on the same connection. -/
def TorrentPeer.SameTransfer (p p' : TorrentPeer) : Prop :=
  p' = { p with
    choked := p'.choked, downloaded := p'.downloaded, bitfield := p'.bitfield,
    pendingLength := p'.pendingLength, requestTime := p'.requestTime,
    lastActivity := p'.lastActivity }

/-- What a message other than a block does to the record of its peer. -/
inductive TorrentPeer.Update (t : Torrent) (p : TorrentPeer) : TorrentPeer → Prop
  | choke : p.Update t { p with choked := true, pendingLength := 0 }
  | unchoke : p.Update t { p with choked := false }
  | active (now : ℕ) : p.Update t (p.active now)
  | bitfield {bits : Bytes} (hlen : bits.length = (t.numPieces + 7) / 8 ∨
      ∃ old, p.bitfield = some old ∧ bits.length = old.length) :
      p.Update t { p with bitfield := some bits }

/-- The torrent differs only in its candidates and in what it reports. -/
def ManagedTorrent.SameTransfer (mt mt' : ManagedTorrent) : Prop :=
  mt' = { mt with
    errorType := mt'.errorType, errorMsg := mt'.errorMsg, activePeers := mt'.activePeers,
    peerCandidates := mt'.peerCandidates, nextCandidate := mt'.nextCandidate,
    trackerAnnounces := mt'.trackerAnnounces, trackerInterval := mt'.trackerInterval,
    trackerFailures := mt'.trackerFailures, speedDown := mt'.speedDown, speedUp := mt'.speedUp,
    lastAnnounceTime := mt'.lastAnnounceTime, lastProgressTime := mt'.lastProgressTime,
    lastSpeedCalc := mt'.lastSpeedCalc, lastUploaded := mt'.lastUploaded,
    peerLog := mt'.peerLog, rounds := mt'.rounds }

/-- The torrent differs only in what it reports. -/
def ManagedTorrent.Reports (mt mt' : ManagedTorrent) : Prop :=
  mt' = { mt with
    errorType := mt'.errorType, errorMsg := mt'.errorMsg, speedDown := mt'.speedDown,
    speedUp := mt'.speedUp, lastProgressTime := mt'.lastProgressTime,
    lastSpeedCalc := mt'.lastSpeedCalc, lastUploaded := mt'.lastUploaded }

/-- The connection attempts of a torrent that are not collected. -/
def connectPending (w : Work) : ℕ :=
  w.peerConnectJobs.countP (·.any (·.generation = w.mt.generation))

/-- It is time to ask the trackers. -/
def ManagedTorrent.AnnounceDue (mt : ManagedTorrent) (now : ℕ) : Prop :=
  mt.lastAnnounceTime = 0 ∨ mt.trackerInterval > 0 ∧
    sub64 now mt.lastAnnounceTime ≥ mt.trackerInterval.toNat

/-- The time was read before. -/
def World.Read (world : World) (now : ℕ) : Prop := ∃ k < world.queries, (world.env k).time = now

/-- The time of the last announce, if any, was read before. -/
def ManagedTorrent.Timed (world : World) (mt : ManagedTorrent) : Prop :=
  mt.lastAnnounceTime = 0 ∨ world.Read mt.lastAnnounceTime

/-- The time was read after that of the last announce. -/
def ManagedTorrent.ReadAfter (world : World) (now : ℕ) (mt : ManagedTorrent) : Prop :=
  ∃ k < world.queries, (world.env k).time = now ∧ mt.Timed { world with queries := k }

/-- The piece of a peer once a block is in its place. -/
def TorrentPeer.assembled (p : TorrentPeer) (buffer data : Bytes) : Bytes :=
  (memcpyAt buffer p.pieceReceived data).take p.pieceSize

namespace Work

/-- A peer answers the request that is outstanding. -/
structure Receives (w : Work) (i : ℕ) (p : TorrentPeer) (buffer data : Bytes) : Prop where
  peer : w.mt.peers[i]? = some p
  buffer : p.pieceData = some buffer
  pending : p.pendingLength ≠ 0
  length : data.length = p.pendingLength
  le : data.length ≤ sub64 p.pieceSize p.pieceReceived

/-- A step of the work of a tick on a torrent. -/
inductive Step : Work → Work → Prop
  | query (w : Work) : Step w w.next
  | report {w : Work} {mt : ManagedTorrent} (hmt : w.mt.Reports mt) : Step w { w with mt := mt }
  | speed {w : Work} : Step w { w with mt.lastDownloaded := w.mt.downloaded }
  | takeCandidate {w : Work} (hne : w.mt.peerCandidates ≠ []) : Step w (takeCandidate w)
  | postpone {w : Work} {c : PeerCandidate} {index now : ℕ}
      (hc : w.mt.peerCandidates[index]? = some c) (hnow : c.retryAfter ≤ now) :
      Step w (postponeCandidate now index w)
  | connect {w : Work} {c : PeerCandidate} {slot index now : ℕ}
      (hslot : w.peerConnectJobs[slot]? = some none) (hc : w.mt.peerCandidates[index]? = some c)
      (hconnecting : c.connecting = false) (hnow : c.retryAfter ≤ now)
      (hclosed : peerIsConnected w.mt c.addr = false)
      (hpending : connectPending w < PEER_CONNECT_PARALLEL)
      (hactive : w.mt.activePeers + connectPending w < MAX_PEERS_PER_TORRENT) :
      Step w (launchConnection slot index c.addr now w)
  | peer {w : Work} {i : ℕ} {p p' : TorrentPeer} (hp : w.mt.peers[i]? = some p)
      (hp' : p.Update w.mt.torrent p') : Step w (w.setPeer i p')
  | receive {w : Work} {i : ℕ} {p : TorrentPeer} {buffer data : Bytes}
      (h : w.Receives i p buffer data) (hmore : p.pieceReceived + data.length ≠ p.pieceSize) :
      Step w (w.setPeer i (p.received buffer data))
  | finish {w : Work} {i : ℕ} {p : TorrentPeer} {buffer data : Bytes}
      (hstate : w.mt.state = .downloading) (h : w.Receives i p buffer data)
      (hfull : p.pieceReceived + data.length = p.pieceSize)
      (hhash : sha1Hash (p.assembled buffer data) = w.mt.torrent.pieceHash p.lastRequest)
      (hwrite : (w.writePiece p.lastRequest (p.assembled buffer data)).1 = true) :
      Step w (finishPiece i (p.received buffer data) (p.assembled buffer data) p.lastRequest
        (w.setPeer i (p.received buffer data))).2
  | reject {w : Work} {i : ℕ} {p : TorrentPeer} {buffer data : Bytes}
      (h : w.Receives i p buffer data) (hfull : p.pieceReceived + data.length = p.pieceSize)
      (hhash : sha1Hash (p.assembled buffer data) ≠ w.mt.torrent.pieceHash p.lastRequest) :
      Step w (disconnectPeer i (w.setPeer i (p.received buffer data)))
  | writeFailed {w : Work} {i : ℕ} {p : TorrentPeer} {buffer data : Bytes}
      (errorType : TorrentError) (errorMsg : Bytes) (h : w.Receives i p buffer data)
      (hfull : p.pieceReceived + data.length = p.pieceSize)
      (hhash : sha1Hash (p.assembled buffer data) = w.mt.torrent.pieceHash p.lastRequest)
      (hwrite : (w.writePiece p.lastRequest (p.assembled buffer data)).1 = false) :
      Step w (disconnectPeer i (((w.writePiece p.lastRequest (p.assembled buffer data)).2.setPeer i
        (p.received buffer data)).failTransfer errorType errorMsg))
  | fail {w : Work} (errorType : TorrentError) (errorMsg : Bytes) :
      Step w (w.failTransfer errorType errorMsg)
  | disconnect {w : Work} {i : ℕ} {p : TorrentPeer} (hp : w.mt.peers[i]? = some p) :
      Step w (disconnectPeer i w)
  | claim {w : Work} {i : ℕ} {p : TorrentPeer} {next : ℕ}
      (hstate : w.mt.state = .downloading) (hp : w.mt.peers[i]? = some p) (hsock : p.sock.isSome)
      (hdata : p.pieceData = none) (hbitfield : p.bitfield.isSome) (hpending : p.pendingLength = 0)
      (hnext : pieceMgrGetNext w.mt.pieceMgr p.bitfield = some next)
      (hsize : nextPieceSize w.mt.torrent next ≤ ASSEMBLY_LIMIT)
      (hroom : nextPieceSize w.mt.torrent next ≤ sub64 ASSEMBLY_LIMIT w.assemblyBytes) :
      Step w { w.setPeer i (p.claimed (w.mt.pieceMgr.state next) next
          (nextPieceSize w.mt.torrent next)) with
        assemblyBytes := toSize (w.assemblyBytes + nextPieceSize w.mt.torrent next)
        mt.pieceMgr := pieceMgrRequest w.mt.pieceMgr next }
  | request {w : Work} {i now : ℕ} {p : TorrentPeer} (hp : w.mt.peers[i]? = some p)
      (hchoked : p.choked = false) (hpending : p.pendingLength = 0) (hdata : p.pieceData.isSome) :
      Step w (sendRequest i p now w)
  | discovery {w : Work} {slot now : ℕ} (hslot : w.discoveryJobs[slot]?.join = none)
      (hnone : ∀ job, some job ∈ w.discoveryJobs → job.result.generation ≠ w.mt.generation)
      (hdue : w.mt.AnnounceDue now) (hread : w.mt.ReadAfter w.toWorld now) :
      Step w (launchDiscovery slot now w)
  | webSeed {w : Work} {slot first : ℕ} {sizes : List ℕ}
      (hslot : w.webSeedJobs[slot]? = some none) (hbatch : webSeedBatch w.mt = some (first, sizes)) :
      Step w { w.schedule with
        mt.pieceMgr := requestPieces sizes.length first w.mt.pieceMgr
        webSeedJobs := w.webSeedJobs.set slot (some (webSeedJob w.mt first sizes)) }

/-- Any number of steps. -/
abbrev Steps : Work → Work → Prop := ReflTransGen Step

end Work

theorem TorrentPeer.Update.sameTransfer {t : Torrent} {p p' : TorrentPeer} (h : p.Update t p') :
    p.SameTransfer p' := by
  cases h <;> rfl

open Work

variable {w : Work} {i now : ℕ} {p : TorrentPeer}

/-! ## Primitive steps -/

@[simp]
theorem getElem?_setPeer (h : w.mt.peers[i]? = some p) (p' : TorrentPeer) :
    (w.setPeer i p').mt.peers[i]? = some p' := by
  obtain ⟨hlt, -⟩ := List.getElem?_eq_some_iff.1 h
  exact List.getElem?_set_self hlt

/-- A peer record is replaced by itself. -/
theorem setPeer_self (hp : w.mt.peers[i]? = some p) : w.next.setPeer i p = w.next := by
  obtain ⟨hlt, hget⟩ := List.getElem?_eq_some_iff.1 hp
  rw [setPeer, ← hget]
  dsimp only [next]
  rw [List.set_getElem_self]

theorem recordPeerFailure_eq (addr : PeerAddr) (w : Work) :
    ∃ queries candidates log, w.queries ≤ queries ∧ recordPeerFailure addr w =
      { w with queries := queries, mt.peerCandidates := candidates, mt.peerLog := log } := by
  rw [recordPeerFailure]
  split
  · exact ⟨_, _, _, le_rfl, rfl⟩
  · exact ⟨_, _, _, Nat.le_succ _, rfl⟩

theorem updateCandidate_eq (addr : PeerAddr) (f : PeerCandidate → PeerCandidate)
    (mt : ManagedTorrent) :
    ∃ candidates, mt.updateCandidate addr f = { mt with peerCandidates := candidates } := by
  rw [ManagedTorrent.updateCandidate]
  split
  · exact ⟨_, rfl⟩
  · exact ⟨_, rfl⟩

theorem findCandidate_eq_some {mt : ManagedTorrent} {addr : PeerAddr} (h : findCandidate mt addr = some i) :
    ∃ c, mt.peerCandidates[i]? = some c ∧ c.addr = addr := by
  obtain ⟨hlt, haddr, -⟩ := List.findIdx?_eq_some_iff_getElem.1 h
  exact ⟨_, List.getElem?_eq_getElem hlt, of_decide_eq_true haddr⟩

theorem findCandidate_eq_none {mt : ManagedTorrent} {addr : PeerAddr}
    (h : findCandidate mt addr = none) {c : PeerCandidate} (hc : c ∈ mt.peerCandidates) :
    c.addr ≠ addr :=
  of_decide_eq_false (List.findIdx?_eq_none_iff.1 h c hc)

/-- What the torrent records of the end of a connection. -/
def hangUp (p : TorrentPeer) (w : Work) : Work :=
  if p.sock.isNone then w
  else
    let w := if w.mt.state = .downloading then recordPeerFailure p.addr w else w
    { w with mt.activePeers := w.mt.activePeers - 1 }

theorem hangUp_eq (p : TorrentPeer) (w : Work) :
    ∃ queries candidates log active, w.queries ≤ queries ∧
      (w.mt.state ≠ .downloading → log = w.mt.peerLog) ∧
      hangUp p w = { w with
        queries := queries, mt.peerCandidates := candidates, mt.peerLog := log,
        mt.activePeers := active } := by
  rw [hangUp]
  split
  · exact ⟨_, _, _, _, le_rfl, fun _ => rfl, rfl⟩
  · dsimp only
    split
    case isTrue hstate =>
      obtain ⟨queries, candidates, log, hle, h⟩ := recordPeerFailure_eq p.addr w
      rw [h]
      exact ⟨_, _, _, _, hle, fun hne => absurd hstate hne, rfl⟩
    case isFalse => exact ⟨_, _, _, _, le_rfl, fun _ => rfl, rfl⟩

theorem closePeer_eq (hp : w.mt.peers[i]? = some p) :
    closePeer i w = (hangUp p w).setPeer i { p with sock := none } := by
  rw [closePeer, hp, hangUp]
  dsimp only
  split
  case isTrue hsock =>
    have hp' : { p with sock := none } = p := by
      cases p
      simp only [Option.isNone_iff_eq_none] at hsock
      rw [hsock]
    obtain ⟨hlt, hget⟩ := List.getElem?_eq_some_iff.1 hp
    rw [hp', setPeer, ← hget, List.set_getElem_self]
  case isFalse => rfl

/-- The bytes of the buffer of a peer. -/
def TorrentPeer.bytes (p : TorrentPeer) : ℕ := if p.pieceData.isSome then p.pieceSize else 0

/-- The bytes in buffers once a peer has released its own. -/
def TorrentPeer.releases (p : TorrentPeer) (assemblyBytes : ℕ) : ℕ :=
  if p.pieceData.isNone then assemblyBytes else sub64 assemblyBytes p.pieceSize

/-- The log of the releases once a peer has released its buffer. -/
def TorrentPeer.logRelease (p : TorrentPeer) (assemblyBytes : ℕ) (releases : List Release) :
    List Release :=
  if p.pieceData.isNone then releases else ⟨assemblyBytes, p.pieceSize⟩ :: releases

theorem releasePiece_eq (hp : w.mt.peers[i]? = some p) :
    releasePiece i w = { w.setPeer i p.released with
      assemblyBytes := p.releases w.assemblyBytes,
      releases := p.logRelease w.assemblyBytes w.releases,
      mt.pieceMgr := p.leaves w.mt.pieceMgr } := by
  rw [releasePiece, hp]
  dsimp only
  rw [TorrentPeer.leaves, TorrentPeer.releases, TorrentPeer.logRelease]
  split
  · rfl
  · rfl

theorem disconnectPeer_of_none (hp : w.mt.peers[i]? = none) : disconnectPeer i w = w := by
  rw [disconnectPeer, closePeer, hp]
  dsimp only
  rw [releasePiece, hp]
  dsimp only
  rw [dropBitfield, hp]

theorem getElem?_hangUp (p' : TorrentPeer) : (hangUp p' w).mt.peers = w.mt.peers := by
  obtain ⟨queries, candidates, log, active, -, -, h⟩ := hangUp_eq p' w
  rw [h]

/-- What the disconnection of a peer changes. -/
theorem disconnectPeer_eq (hp : w.mt.peers[i]? = some p) :
    disconnectPeer i w = { (hangUp p w).setPeer i p.idle with
      assemblyBytes := p.releases (hangUp p w).assemblyBytes,
      releases := p.logRelease (hangUp p w).assemblyBytes (hangUp p w).releases,
      mt.pieceMgr := p.leaves (hangUp p w).mt.pieceMgr } := by
  have hp₀ : (hangUp p w).mt.peers[i]? = some p := by rw [getElem?_hangUp, hp]
  have hp₁ : (closePeer i w).mt.peers[i]? = some { p with sock := none } := by
    rw [closePeer_eq hp]
    exact getElem?_setPeer hp₀ _
  have hp₂ : (releasePiece i (closePeer i w)).mt.peers[i]? =
      some ({ p with sock := none } : TorrentPeer).released := by
    rw [releasePiece_eq hp₁]
    exact getElem?_setPeer hp₁ _
  rw [disconnectPeer, dropBitfield, hp₂]
  dsimp only
  rw [releasePiece_eq hp₁, closePeer_eq hp]
  simp only [setPeer, List.set_set]
  rfl

/-- What the disconnection of a peer changes, apart from what is recorded of it. -/
theorem disconnectPeer_eq' (hp : w.mt.peers[i]? = some p) :
    ∃ queries candidates log active, w.queries ≤ queries ∧
      (w.mt.state ≠ .downloading → log = w.mt.peerLog) ∧
      disconnectPeer i w = { w.setPeer i p.idle with
        queries := queries, assemblyBytes := p.releases w.assemblyBytes,
        releases := p.logRelease w.assemblyBytes w.releases,
        mt.peerCandidates := candidates, mt.peerLog := log, mt.activePeers := active,
        mt.pieceMgr := p.leaves w.mt.pieceMgr } := by
  obtain ⟨queries, candidates, log, active, hle, hlog, h⟩ := hangUp_eq p w
  refine ⟨queries, candidates, log, active, hle, hlog, ?_⟩
  rw [disconnectPeer_eq hp, h]
  rfl

theorem peers_disconnectPeer (i : ℕ) (w : Work) :
    (disconnectPeer i w).mt.peers = w.mt.peers.modify i TorrentPeer.idle := by
  cases hp : w.mt.peers[i]? with
  | none =>
    rw [disconnectPeer_of_none hp, List.modify_eq_self (List.getElem?_eq_none_iff.1 hp)]
  | some p =>
    obtain ⟨queries, candidates, log, active, -, -, heq⟩ := disconnectPeer_eq' hp
    rw [heq, List.modify_eq_set_getElem?, hp]
    rfl

theorem torrent_disconnectPeer (i : ℕ) (w : Work) :
    (disconnectPeer i w).mt.torrent = w.mt.torrent ∧ (disconnectPeer i w).requests = w.requests := by
  cases hp : w.mt.peers[i]? with
  | none =>
    rw [disconnectPeer_of_none hp]
    exact ⟨rfl, rfl⟩
  | some p =>
    obtain ⟨queries, candidates, log, active, -, -, heq⟩ := disconnectPeer_eq' hp
    rw [heq]
    exact ⟨rfl, rfl⟩

theorem peers_disconnectPeers (w : Work) :
    (disconnectPeers w).mt.peers = w.mt.peers.map TorrentPeer.idle := by
  rw [← Slots.foldl_modify_range, disconnectPeers]
  generalize List.range w.mt.peers.length = is
  induction is generalizing w with
  | nil => rfl
  | cons i is ih => rw [List.foldl_cons, List.foldl_cons, ih, peers_disconnectPeer]

theorem disconnectPeers_eq (w : Work) :
    ∃ queries bytes releases peers candidates log active pm, w.queries ≤ queries ∧
      (w.mt.state ≠ .downloading → log = w.mt.peerLog) ∧
      disconnectPeers w = { w with
        queries := queries, assemblyBytes := bytes, releases := releases, mt.peers := peers,
        mt.peerCandidates := candidates, mt.peerLog := log, mt.activePeers := active,
        mt.pieceMgr := pm } := by
  rw [disconnectPeers]
  generalize List.range w.mt.peers.length = is
  induction is generalizing w with
  | nil => exact ⟨_, _, _, _, _, _, _, _, le_rfl, fun _ => rfl, rfl⟩
  | cons i is ih =>
    obtain ⟨queries, bytes, releases, peers, candidates, log, active, pm, hle, hlog, h⟩ :=
      ih (disconnectPeer i w)
    rw [List.foldl_cons, h]
    cases hp : w.mt.peers[i]? with
    | none =>
      rw [disconnectPeer_of_none hp] at hle hlog ⊢
      exact ⟨_, _, _, _, _, _, _, _, hle, hlog, rfl⟩
    | some p =>
      obtain ⟨queries', candidates', log', active', hle', hlog', h'⟩ := disconnectPeer_eq' hp
      rw [h'] at hle hlog ⊢
      exact ⟨_, _, _, _, _, _, _, _, hle'.trans hle, fun hne => (hlog hne).trans (hlog' hne), rfl⟩

theorem clearFailures_eq (addr : PeerAddr) (mt : ManagedTorrent) :
    clearFailures addr mt = { mt with
      peerCandidates := (clearFailures addr mt).peerCandidates,
      peerLog := .verified addr :: mt.peerLog } := by
  rw [clearFailures, ManagedTorrent.updateCandidate]
  split
  · rfl
  · rfl

/-- The end of a piece depends on the candidates alone. -/
theorem peerCandidates_clearFailures (addr : PeerAddr) {mt mt' : ManagedTorrent}
    (h : mt.peerCandidates = mt'.peerCandidates) :
    (clearFailures addr mt).peerCandidates = (clearFailures addr mt').peerCandidates := by
  have hfind : findCandidate mt addr = findCandidate mt' addr := by
    rw [findCandidate, findCandidate, h]
  rw [clearFailures, clearFailures, ManagedTorrent.updateCandidate, ManagedTorrent.updateCandidate,
    hfind]
  cases findCandidate mt' addr with
  | none => exact h
  | some j =>
    dsimp only [ManagedTorrent.log, ManagedTorrent.modifyCandidate]
    rw [h]

/-- What the end of a piece that is verified and written changes. -/
theorem finishPiece_eq {index : ℕ} {data : Bytes} (hp : w.mt.peers[i]? = some p)
    (hhash : sha1Hash data = w.mt.torrent.pieceHash index)
    (hwrite : (w.writePiece index data).1 = true) :
    ∃ downloaded, finishPiece i p data index w =
      (true, { (w.writePiece index data).2.setPeer i { p.released with downloaded := downloaded } with
        assemblyBytes := p.releases w.assemblyBytes,
        releases := p.logRelease w.assemblyBytes w.releases,
        mt.peerCandidates := (clearFailures p.addr w.mt).peerCandidates,
        mt.peerLog := .verified p.addr :: w.mt.peerLog,
        mt.pieceMgr := p.leaves (pieceMgrComplete w.mt.pieceMgr index data).2,
        mt.downloaded := toSize (w.mt.downloaded + p.pieceSize) }) := by
  rw [finishPiece, if_neg (not_not.2 hhash), ← Prod.mk.eta (p := w.writePiece index data), hwrite]
  dsimp only
  rw [if_neg (by decide)]
  have hp₁ : (clearFailures p.addr
      (countPiece i p data index (w.writePiece index data).2).mt).peers[i]? =
        some { p with downloaded := toSize (p.downloaded + p.pieceSize) } := by
    rw [clearFailures_eq]
    exact getElem?_setPeer hp _
  have hcandidates : (clearFailures p.addr
      (countPiece i p data index (w.writePiece index data).2).mt).peerCandidates =
        (clearFailures p.addr w.mt).peerCandidates := peerCandidates_clearFailures p.addr rfl
  refine ⟨toSize (p.downloaded + p.pieceSize), ?_⟩
  refine (congrArg (Prod.mk true) (releasePiece_eq hp₁)).trans ?_
  rw [clearFailures_eq, hcandidates]
  simp only [countPiece, setPeer, List.set_set]
  rfl

/-! ## Peers -/

/-- The torrent is downloading and the peer connected. -/
def Connected (i : ℕ) (w : Work) : Prop :=
  w.mt.state = .downloading ∧ ∃ p, w.mt.peers[i]? = some p ∧ p.sock.isSome

/-- The work is done in steps, and the peer is still connected if it goes on. -/
def Handled (i : ℕ) (w : Work) (r : Bool × Work) : Prop :=
  Steps w r.2 ∧ (r.1 = true → Connected i r.2)

theorem Handled.of_steps {r : Bool × Work} {w' : Work} (h : Steps w w') (hr : Handled i w' r) :
    Handled i w r :=
  ⟨h.trans hr.1, hr.2⟩

section Handled

variable (hp : w.mt.peers[i]? = some p)

include hp

/-- The peer is disconnected and the function returns. -/
theorem handled_disconnect : Handled i w (false, disconnectPeer i w) :=
  ⟨.single (.disconnect hp), Bool.noConfusion⟩

variable (hstate : w.mt.state = .downloading) (hsock : p.sock.isSome)

include hstate hsock

theorem handled_self : Handled i w (true, w) := ⟨.refl, fun _ => ⟨hstate, p, hp, hsock⟩⟩

/-- A change that leaves the transfer as it is. -/
theorem handled_peer {p' : TorrentPeer} (hp' : p.Update w.mt.torrent p') :
    Handled i w (true, w.setPeer i p') := by
  have hsock' : p'.sock.isSome := by
    rw [hp'.sameTransfer]
    exact hsock
  exact ⟨.single (.peer hp hp'), fun _ => ⟨hstate, p', getElem?_setPeer hp p', hsock'⟩⟩

omit hp in
theorem handled_finishPiece {buffer data : Bytes} (h : w.Receives i p buffer data)
    (hfull : p.pieceReceived + data.length = p.pieceSize) :
    Handled i w (finishPiece i (p.received buffer data) (p.assembled buffer data) p.lastRequest
      (w.setPeer i (p.received buffer data))) := by
  have hp' := getElem?_setPeer h.peer (p.received buffer data)
  have htorrent : (w.setPeer i (p.received buffer data)).mt.torrent = w.mt.torrent := rfl
  by_cases hhash : sha1Hash (p.assembled buffer data) = w.mt.torrent.pieceHash p.lastRequest
  case neg =>
    rw [finishPiece, htorrent, if_pos hhash]
    exact ⟨.single (.reject h hfull hhash), Bool.noConfusion⟩
  cases hwrite : (w.writePiece p.lastRequest (p.assembled buffer data)).1 with
  | false =>
    have hcall : (w.setPeer i (p.received buffer data)).writePiece p.lastRequest
        (p.assembled buffer data) = (false, (w.writePiece p.lastRequest
          (p.assembled buffer data)).2.setPeer i (p.received buffer data)) := Prod.ext hwrite rfl
    rw [finishPiece, htorrent, if_neg (not_not.2 hhash), hcall]
    exact ⟨.single (.writeFailed _ _ h hfull hhash hwrite), Bool.noConfusion⟩
  | true =>
    refine ⟨.single (.finish hstate h hfull hhash hwrite), fun _ => ?_⟩
    obtain ⟨downloaded, heq⟩ := finishPiece_eq hp' hhash hwrite
    rw [heq]
    exact ⟨hstate, _, getElem?_setPeer hp' _, hsock⟩

theorem handled_onPiece (index begin : ℕ) (data : Bytes) :
    Handled i w (onPiece i p now index begin data w) := by
  rw [onPiece]
  cases hbuffer : p.pieceData with
  | none => exact handled_self hp hstate hsock
  | some buffer =>
    dsimp only
    split
    case isTrue => exact handled_self hp hstate hsock
    case isFalse hpending =>
    split
    case isTrue => exact handled_self hp hstate hsock
    case isFalse hblock =>
      push Not at hblock
      obtain ⟨rfl, rfl⟩ := hblock
      split
      case isTrue => exact handled_disconnect hp
      case isFalse hlen =>
        push Not at hlen
        -- The progress is noted first, which the block does not depend on.
        have hnoted : Steps w { w with mt.lastProgressTime := now } := .single (.report rfl)
        have hreceives : { w with mt.lastProgressTime := now : Work }.Receives i p buffer data :=
          ⟨hp, hbuffer, hpending, hlen.1, hlen.2⟩
        split
        case isTrue hfull =>
          exact .of_steps hnoted (handled_finishPiece (w := { w with mt.lastProgressTime := now })
            hstate hsock hreceives hfull)
        case isFalse hmore =>
          exact ⟨hnoted.tail (.receive hreceives hmore),
            fun _ => ⟨hstate, _, getElem?_setPeer hp _, hsock⟩⟩

theorem handled_onAvailability (type : ℤ) (index : ℕ) (data : Bytes) :
    Handled i w (onAvailability i p type index data w) := by
  rw [onAvailability]
  dsimp only
  split
  case isTrue => exact handled_disconnect hp
  case isFalse hvalid =>
    -- A bitfield has its length from the message, or else keeps that of the old one.
    have hlen (bitfield : Bytes) : (if type = PEER_MSG_BITFIELD then data else
        setBit bitfield index).length = (w.mt.torrent.numPieces + 7) / 8 ∨
        (if type = PEER_MSG_BITFIELD then data else setBit bitfield index).length =
          bitfield.length := by
      split
      case isTrue htype =>
        refine .inl (not_not.1 fun hne => hvalid ?_)
        rw [decide_eq_true htype, decide_eq_true hne]
        rfl
      case isFalse => exact .inr (length_setBit ..)
    cases hbitfield : p.bitfield with
    | some bitfield =>
      refine handled_peer hp hstate hsock (.bitfield ?_)
      exact (hlen bitfield).imp_right fun h => ⟨bitfield, hbitfield, h⟩
    | none =>
      dsimp only
      split
      case isTrue => exact .of_steps (.single (.query w)) (handled_disconnect hp)
      case isFalse =>
        refine .of_steps (.single (.query w)) (handled_peer (w := w.next) hp hstate hsock
          (.bitfield (.inl ?_)))
        rcases hlen (List.replicate ((w.mt.torrent.numPieces + 7) / 8) 0) with h | h
        · exact h
        · rw [h, List.length_replicate]
          rfl

theorem handled_onMessage (now : ℕ) (type : ℤ) (index begin : ℕ) (data : Bytes) :
    Handled i w (onMessage i p now type index begin data w) := by
  rw [onMessage]
  split
  · exact handled_peer hp hstate hsock .choke
  split
  · exact handled_peer hp hstate hsock .unchoke
  split
  · exact handled_onAvailability hp hstate hsock type index data
  split
  · exact handled_onPiece hp hstate hsock index begin data
  · exact handled_self hp hstate hsock

omit hp hstate hsock in
theorem handled_peerEvents (now n : ℕ) (hc : Connected i w) : Handled i w (peerEvents i now n w) := by
  induction n generalizing w with
  | zero => exact ⟨.refl, fun _ => hc⟩
  | succ n ih =>
    obtain ⟨hstate, p, hp, hsock⟩ := hc
    rw [peerEvents, hp]
    dsimp only
    cases w.outcome.event with
    | incomplete => exact ⟨.single (.query w), fun _ => ⟨hstate, p, hp, hsock⟩⟩
    | error => exact .of_steps (.single (.query w)) (handled_disconnect hp)
    | message type index begin data =>
      have hactive : Steps w (w.next.setPeer i (p.active now)) :=
        .tail (.single (.query w)) (.peer hp (.active now))
      have hmessage := handled_onMessage (getElem?_setPeer (w := w.next) hp
        (p.active now)) hstate hsock now type index begin data
      dsimp only
      generalize onMessage i (p.active now) now type index begin data
        (w.next.setPeer i (p.active now)) = r at hmessage
      obtain ⟨goes, w'⟩ := r
      cases goes with
      | false => exact .of_steps hactive hmessage
      | true => exact .of_steps (hactive.trans hmessage.1) (ih (hmessage.2 rfl))

end Handled

theorem steps_requestBlock (hp : w.mt.peers[i]? = some p) (hchoked : p.choked = false)
    (hpending : p.pendingLength = 0) (hdata : p.pieceData.isSome) :
    Steps w (requestBlock i now w) := by
  rw [requestBlock, hp]
  dsimp only
  split
  case isTrue => exact .tail (.single (.query w)) (.disconnect hp)
  case isFalse => exact .tail (.single (.query w)) (.request (w := w.next) hp hchoked hpending hdata)

/-- A peer that can be asked for a block is, of the piece it holds or begins. -/
theorem steps_claimPiece (hp : w.mt.peers[i]? = some p) (hstate : w.mt.state = .downloading)
    (hsock : p.sock.isSome) (hchoked : p.choked = false) (hpending : p.pendingLength = 0)
    (hbitfield : p.bitfield.isSome) :
    Steps w (claimPiece i p w).2 ∧ ((claimPiece i p w).1 = true → ∃ p',
      (claimPiece i p w).2.mt.peers[i]? = some p' ∧ p'.choked = false ∧ p'.pendingLength = 0 ∧
        p'.pieceData.isSome) := by
  rw [claimPiece]
  split
  case isTrue hdata => exact ⟨.refl, fun _ => ⟨p, hp, hchoked, hpending, hdata⟩⟩
  case isFalse hdata =>
    cases hnext : pieceMgrGetNext w.mt.pieceMgr p.bitfield with
    | none => exact ⟨.refl, Bool.noConfusion⟩
    | some next =>
      dsimp only
      split
      case isTrue => exact ⟨.single (.fail _ _), Bool.noConfusion⟩
      case isFalse hsize =>
      split
      case isTrue => exact ⟨.refl, Bool.noConfusion⟩
      case isFalse hroom =>
      split
      case isTrue => exact ⟨.tail (.single (.query w)) (.disconnect hp), Bool.noConfusion⟩
      case isFalse =>
        refine ⟨.tail (.single (.query w)) (.claim (w := w.next) hstate hp hsock
          (Option.not_isSome_iff_eq_none.1 hdata) hbitfield hpending hnext (not_lt.1 hsize)
          (not_lt.1 hroom)), fun _ => ⟨_, getElem?_setPeer hp _, hchoked, hpending, rfl⟩⟩

theorem steps_requestNext (hc : Connected i w) : Steps w (requestNext i now w) := by
  obtain ⟨hstate, p, hp, hsock⟩ := hc
  rw [requestNext, hp]
  dsimp only
  split
  case isTrue => exact .refl
  case isFalse hready =>
    simp only [Bool.or_eq_true, decide_eq_true_eq, not_or, Bool.not_eq_true, not_not,
      Option.isNone_eq_false_iff] at hready
    obtain ⟨⟨hchoked, hpending⟩, hbitfield⟩ := hready
    obtain ⟨hclaim, hgoes⟩ := steps_claimPiece hp hstate hsock hchoked hpending hbitfield
    generalize claimPiece i p w = r at hclaim hgoes
    obtain ⟨goes, w'⟩ := r
    cases goes with
    | false => exact hclaim
    | true =>
      obtain ⟨p', hp', hchoked', hpending', hdata'⟩ := hgoes rfl
      exact hclaim.trans (steps_requestBlock hp' hchoked' hpending' hdata')

theorem steps_servePeer (hp : w.mt.peers[i]? = some p) (hstate : w.mt.state = .downloading)
    (hsock : p.sock.isSome) : Steps w (servePeer i now p w) := by
  rw [servePeer]
  split
  · exact .single (.disconnect hp)
  split
  · exact .single (.disconnect hp)
  have hevents := handled_peerEvents now 8 (⟨hstate, p, hp, hsock⟩ : Connected i w)
  generalize peerEvents i now 8 w = r at hevents
  obtain ⟨goes, w'⟩ := r
  cases goes with
  | false => exact hevents.1
  | true => exact hevents.1.trans (steps_requestNext (hevents.2 rfl))

theorem steps_processPeer : Steps w (processPeer i w) := by
  rw [processPeer]
  cases hp : w.mt.peers[i]? with
  | none => exact .refl
  | some p =>
    dsimp only
    split
    case isTrue => exact .refl
    case isFalse hopen =>
      simp only [Bool.or_eq_true, decide_eq_true_eq, not_or, Bool.not_eq_true, not_not,
        Option.isNone_eq_false_iff] at hopen
      obtain ⟨hsock, hstate⟩ := hopen
      split
      case isTrue =>
        have hfirst : Steps w (w.next.setPeer i (p.active w.outcome.time)) :=
          .tail (.single (.query w)) (.peer (w := w.next) hp (.active _))
        exact hfirst.trans (steps_servePeer (getElem?_setPeer (w := w.next) hp _) hstate hsock)
      case isFalse =>
        have hfirst : Steps w (w.next.setPeer i p) := by
          rw [setPeer_self hp]
          exact .single (.query w)
        exact hfirst.trans (steps_servePeer (getElem?_setPeer (w := w.next) hp _) hstate hsock)

/-! ## Jobs -/

theorem findIdx?_isNone {Job : Type} {jobs : List (Option Job)} {slot : ℕ}
    (h : jobs.findIdx? Option.isNone = some slot) : jobs[slot]? = some none := by
  obtain ⟨hlt, hnone, -⟩ := List.findIdx?_eq_some_iff_getElem.1 h
  rw [List.getElem?_eq_getElem hlt, Option.isNone_iff_eq_none.1 hnone]

theorem read_next (h : w.Read now) : w.next.Read now := by
  obtain ⟨k, hk, htime⟩ := h
  exact ⟨k, Nat.lt_succ_of_lt hk, htime⟩

theorem readAfter_next (h : w.mt.ReadAfter w.toWorld now) :
    w.next.mt.ReadAfter w.next.toWorld now := by
  obtain ⟨k, hk, htime⟩ := h
  exact ⟨k, Nat.lt_succ_of_lt hk, htime⟩

theorem steps_scheduleDiscovery (hdue : w.mt.AnnounceDue now)
    (hread : w.mt.ReadAfter w.toWorld now) : Steps w (scheduleDiscovery now w) := by
  rw [scheduleDiscovery]
  split
  · exact .refl
  split
  · exact .refl
  rename_i hnone
  cases hslot : (List.range w.discoveryJobs.length).reverse.find? fun slot =>
    (w.discoveryJobs[slot]?.join).isNone with
  | none => exact .refl
  | some slot =>
    have hfree : (w.discoveryJobs[slot]?.join).isNone := by
      simpa using List.find?_some hslot
    have hnone' : ∀ job, some job ∈ w.discoveryJobs → job.result.generation ≠ w.mt.generation :=
      fun job hjob heq => hnone (List.any_eq_true.2 ⟨some job, hjob, decide_eq_true heq⟩)
    dsimp only
    have h₁ : Steps w w.next := .single (.query w)
    have h₂ : Steps w w.next.next := h₁.tail (.query _)
    have h₃ : Steps w w.next.next.next := h₂.tail (.query _)
    split
    · exact h₁
    split
    · exact h₂
    split
    · exact h₃
    · exact h₃.tail (.discovery (w := w.next.next.next) (Option.isNone_iff_eq_none.1 hfree) hnone'
        hdue (readAfter_next (readAfter_next (readAfter_next hread))))

/-- One more attempt is pending once its worker has started. -/
theorem connectPending_launchConnection {slot index : ℕ} {addr : PeerAddr}
    (hslot : w.peerConnectJobs[slot]? = some none) :
    connectPending (launchConnection slot index addr now w) = connectPending w + 1 := by
  have h := Slots.countP_set_add (p := (·.any (·.generation = w.mt.generation)))
    (y := some (⟨w.mt.generation, addr, [], none, false⟩ : PeerConnectJob)) hslot
  rw [Option.any_none, Option.any_some, decide_eq_true rfl] at h
  exact h

theorem steps_connectCandidates {n pending : ℕ} (hpending : pending = connectPending w)
    (hn : n ≤ w.mt.peerCandidates.length) : Steps w (connectCandidates now n pending w) := by
  induction n generalizing w pending with
  | zero => exact .refl
  | succ n ih =>
    rw [connectCandidates]
    split
    case isFalse => exact .refl
    case isTrue hroom =>
    dsimp only
    have hne : w.mt.peerCandidates ≠ [] := List.ne_nil_of_length_pos (by omega)
    have h₀ : Steps w (takeCandidate w) := .single (.takeCandidate hne)
    cases hc : (takeCandidate w).mt.peerCandidates[w.mt.nextCandidate %
      w.mt.peerCandidates.length]? with
    | none => exact h₀
    | some c =>
      dsimp only
      split
      case isTrue => exact h₀.trans (ih (w := takeCandidate w) hpending (Nat.le_of_succ_le hn))
      case isFalse hready =>
        simp only [Bool.or_eq_true, decide_eq_true_eq, not_or, Bool.not_eq_true, not_lt] at hready
        obtain ⟨⟨hconnecting, hnow⟩, hclosed⟩ := hready
        have h₁ : Steps w (takeCandidate w).next := h₀.tail (.query _)
        have h₂ : Steps w (takeCandidate w).next.next := h₁.tail (.query _)
        cases hslot : (takeCandidate w).peerConnectJobs.findIdx? Option.isNone with
        | none => exact h₀
        | some slot =>
          dsimp only
          split
          · exact h₁
          split
          · exact h₂.tail (.postpone (w := (takeCandidate w).next.next) hc hnow)
          · have hfree := findIdx?_isNone hslot
            rw [hpending] at hroom
            have h₃ : Steps w (launchConnection slot (w.mt.nextCandidate %
                w.mt.peerCandidates.length) c.addr now (takeCandidate w).next.next) :=
              h₂.tail (.connect (w := (takeCandidate w).next.next) hfree hc hconnecting hnow hclosed
                hroom.1 hroom.2)
            refine h₃.trans (ih ?_ ?_)
            · rw [connectPending_launchConnection (w := (takeCandidate w).next.next) hfree, hpending]
              rfl
            · rw [launchConnection]
              dsimp only [ManagedTorrent.log, ManagedTorrent.modifyCandidate]
              rw [List.length_modify]
              exact Nat.le_of_succ_le hn

theorem steps_schedulePeerConnections : Steps w (schedulePeerConnections w) :=
  .trans (.single (.query w)) (steps_connectCandidates rfl le_rfl)

theorem steps_updatePeerStatus : Steps w (updatePeerStatus w) := by
  rw [updatePeerStatus]
  split
  case isTrue => exact .refl
  dsimp only
  split
  · exact .tail (.single (.query w)) (.report rfl)
  split
  · exact .tail (.single (.query w)) (.report rfl)
  · exact .single (.query w)

theorem steps_launchWebSeed {slot first : ℕ} {sizes : List ℕ}
    (hfree : w.webSeedJobs[slot]? = some none) (hbatch : webSeedBatch w.mt = some (first, sizes)) :
    Steps w (launchWebSeed slot first sizes w).2 := by
  rw [launchWebSeed]
  dsimp only
  split
  case isTrue =>
    -- The pieces are requested and freed again.
    obtain ⟨-, -, rfl⟩ := webSeedBatch_eq_some hbatch
    rw [setStates_requestPieces fun i hl hu => state_of_batchSizes hl hu]
    exact .single (.query w)
  case isFalse => exact .tail (.single (.webSeed hfree hbatch)) (.query _)

theorem steps_scheduleWebSeedOne : Steps w (scheduleWebSeedOne w).2 := by
  rw [scheduleWebSeedOne]
  split
  · exact .refl
  split
  · exact .refl
  cases hslot : w.webSeedJobs.findIdx? Option.isNone with
  | none => exact .refl
  | some slot =>
    cases hbatch : webSeedBatch w.mt with
    | none => exact .refl
    | some batch =>
      dsimp only
      have h₁ : Steps w w.next := .single (.query w)
      have h₃ : Steps w w.next.next.next := (h₁.tail (.query _)).tail (.query _)
      split
      · exact h₁
      split
      · exact h₃
      · exact h₃.trans (steps_launchWebSeed (findIdx?_isNone hslot) hbatch)

theorem steps_scheduleWebSeeds (n : ℕ) : Steps w (scheduleWebSeeds n w) := by
  induction n generalizing w with
  | zero => exact .refl
  | succ n ih =>
    rw [scheduleWebSeeds]
    have hone := steps_scheduleWebSeedOne (w := w)
    generalize scheduleWebSeedOne w = r at hone
    obtain ⟨goes, w'⟩ := r
    cases goes with
    | false => exact hone
    | true => exact hone.trans ih

/-! ## Collection -/

theorem ManagedTorrent.SameTransfer.trans {mt mt' mt'' : ManagedTorrent} (h : mt.SameTransfer mt')
    (h' : mt'.SameTransfer mt'') : mt.SameTransfer mt'' := by
  rw [SameTransfer] at h'
  rw [h] at h'
  exact h'

theorem sameTransfer_addCandidate (addr : PeerAddr) (mt : ManagedTorrent) :
    mt.SameTransfer (addCandidate addr mt) := by
  rw [addCandidate]
  split
  · rfl
  split
  · cases replacedCandidate mt with
    | none => rfl
    | some slot =>
      dsimp only
      rw [replaceCandidate]
      split <;> rfl
  · rfl

theorem sameTransfer_addCandidates (queue : List PeerAddr) (mt : ManagedTorrent) :
    mt.SameTransfer (queue.foldl (fun mt addr => addCandidate addr mt) mt) := by
  induction queue generalizing mt with
  | nil => rfl
  | cons addr queue ih => exact (sameTransfer_addCandidate addr mt).trans (ih _)

theorem sameTransfer_countTrackerFailure (result mt : ManagedTorrent) :
    mt.SameTransfer (countTrackerFailure result mt) := by
  rw [countTrackerFailure]
  split <;> rfl

theorem sameTransfer_adoptTrackerError (result mt : ManagedTorrent) :
    mt.SameTransfer (adoptTrackerError result mt) := by
  rw [adoptTrackerError]
  split <;> rfl

theorem sameTransfer_discovered (now : ℕ) (result mt : ManagedTorrent) :
    mt.SameTransfer (result.discovered now mt) :=
  .trans (.trans (rfl : mt.SameTransfer { mt with
    trackerAnnounces := result.trackerAnnounces
    trackerInterval := result.trackerInterval
    lastAnnounceTime := now }) (sameTransfer_countTrackerFailure result _))
    (sameTransfer_adoptTrackerError result _)

/-- A connection attempt leaves the transfers as they are, apart from the new peer. -/
theorem applyConnection_eq (job : PeerConnectJob) (w : Work) :
    ∃ queries mt, w.queries ≤ queries ∧
      applyConnection job w = { w with queries := queries, mt := mt } ∧
      (w.mt.SameTransfer mt ∨ ∃ sock remoteId candidates,
        addPeer (.ofConnection sock job.addr remoteId w.outcome.time)
          { w.mt with peerCandidates := candidates } = some mt) := by
  rw [applyConnection]
  obtain ⟨candidates, hupdate⟩ := updateCandidate_eq job.addr _ w.mt
  rw [hupdate]
  dsimp only
  cases job.sock with
  | none =>
    obtain ⟨queries, candidates', log, hle, h⟩ :=
      recordPeerFailure_eq job.addr { w with mt.peerCandidates := candidates }
    refine ⟨queries, { w.mt with peerCandidates := candidates', peerLog := log }, hle, ?_, .inl rfl⟩
    dsimp only
    rw [h]
  | some sock =>
    dsimp only
    split
    case isTrue => exact ⟨_, _, le_rfl, rfl, .inl rfl⟩
    case isFalse =>
      split
      case h_1 => exact ⟨_, _, le_rfl, rfl, .inl rfl⟩
      case h_2 mt hadd =>
        exact ⟨_, mt, Nat.le_succ _, rfl, .inr ⟨sock, job.remoteId, candidates, hadd⟩⟩

/-! ## The tick -/

theorem steps_updateSpeed : Steps w (updateSpeed now w) := by
  rw [updateSpeed]
  split
  · exact .tail (.single .speed) (.report rfl)
  · exact .refl

theorem steps_announce (hread : w.mt.ReadAfter w.toWorld now) : Steps w (announce now w) := by
  rw [announce]
  split
  case isTrue hdue => exact steps_scheduleDiscovery hdue hread
  case isFalse => exact .refl

theorem steps_foldl {f : Work → ℕ → Work} (h : ∀ w i, Steps w (f w i)) (is : List ℕ) :
    Steps w (is.foldl f w) := by
  induction is generalizing w with
  | nil => exact .refl
  | cons i is ih => exact (h w i).trans ih

theorem readAfter_updateSpeed (hread : w.mt.ReadAfter w.toWorld now) :
    (updateSpeed now w).mt.ReadAfter (updateSpeed now w).toWorld now := by
  rw [updateSpeed]
  split
  · exact hread
  · exact hread

/-- The work of a tick on a torrent that downloads is done in steps, unless it is complete. -/
theorem tickTorrent_cases (hread : w.mt.ReadAfter w.toWorld now) : tickTorrent now w = w ∨
    w.mt.state = .downloading ∧ (Steps w (tickTorrent now w) ∨
      pieceMgrIsDone w.mt.pieceMgr = true ∧ tickTorrent now w = completeTorrent w) := by
  rw [tickTorrent]
  split
  case isTrue => exact .inl rfl
  case isFalse hstate =>
    refine .inr ⟨not_not.1 hstate, ?_⟩
    split
    case isTrue hdone => exact .inr ⟨hdone, rfl⟩
    case isFalse =>
      have hannounce := steps_updateSpeed.trans (steps_announce (readAfter_updateSpeed hread))
      exact .inl ((((hannounce.trans (steps_foldl (fun _ _ => steps_processPeer) _)).trans
        steps_schedulePeerConnections).trans (steps_scheduleWebSeeds _)).trans
          steps_updatePeerStatus)

end PS5Torrent
