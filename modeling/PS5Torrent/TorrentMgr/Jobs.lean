import PS5Torrent.TorrentMgr.Peers

/-!
# Background jobs

The part of `torrent_mgr.c` that hands work to background threads and collects
what they deliver: tracker discovery, connections to peers, and batches of
pieces from web seeds. A job carries the generation of its torrent; what it
delivers is for the torrent that has this generation and is downloading when
it is collected (`live`), and otherwise dropped.

A worker runs at any time between its creation and its collection. All it
shares with the manager is its job, which the manager only looks at when it
collects; so a worker acts between two calls of the manager (`Event`).
-/

namespace PS5Torrent

open Sha1

/-! ## Discovery -/

/-- Replace an absent string by an absent one and a string by its C string. -/
def strdup (s : Option Bytes) : Option Bytes := s.map cstr

/-- `torrent_clone_for_worker` -/
def torrentCloneForWorker (t : Torrent) : Torrent :=
  { t with
    announce := strdup t.announce
    announceList := t.announceList.map cstr
    webSeeds := t.webSeeds.map cstr
    infoDictRaw := []
    name := strdup t.name
    fileName := strdup t.fileName
    files := t.files.map fun file => { file with path := strdup file.path } }

/-- The trackers to ask, with whether each is that of `announce`. -/
def trackerUrls (t : Torrent) : List (Bool × Bytes) :=
  t.announce.toList.map (true, ·) ++ t.announceList.map (false, ·)

/-- Add an entry to the log of the rounds. -/
def ManagedTorrent.logRound (mt : ManagedTorrent) (entry : RoundLog) : ManagedTorrent :=
  { mt with rounds := entry :: mt.rounds }

/-- The worker of a torrent, which has a copy of it, as it begins to ask the trackers. -/
def discoveryJob (mt : ManagedTorrent) : DiscoveryJob where
  result := { mt with
    peers := []
    activePeers := 0
    torrent := torrentCloneForWorker mt.torrent
    trackerAnnounces := mt.trackerAnnounces + 1
    trackerInterval := 30 }
  urls := trackerUrls (torrentCloneForWorker mt.torrent)
  compatible := 0
  httpsSkipped := 0
  contacted := 0
  peersReported := 0
  queue := []
  done := false

/-- Start the worker of a slot, in a tick at the time `now`. -/
def launchDiscovery (slot now : ℕ) (w : Work) : Work :=
  { w.next.schedule with
    discoveryJobs := w.discoveryJobs.set slot (some (discoveryJob w.mt))
    mt := { w.mt with
      lastAnnounceTime := w.outcome.time
      trackerInterval := if w.mt.trackerInterval ≤ 0 then 30 else w.mt.trackerInterval }.logRound
        (.started now) }

def scheduleDiscovery (now : ℕ) (w : Work) : Work :=
  if w.mt.torrent.announce.isNone && w.mt.torrent.announceList = [] then w
  else if w.discoveryJobs.any (·.any (·.result.generation = w.mt.generation)) then w
  else
    -- The loop over the slots keeps the last free one.
    match (List.range w.discoveryJobs.length).reverse.find? fun slot =>
      (w.discoveryJobs[slot]?.join).isNone with
    | none => w
    | some slot =>
      -- The job and its mutex, the clone and the thread.
      if !w.outcome.succeeds then w.next
      else if !w.next.outcome.succeeds then w.next.next
      else if !w.next.next.outcome.succeeds then w.next.next.next
      else launchDiscovery slot now w.next.next.next

/-- Put peer addresses in the queue of a job, as long as there is room and they
    are not in it. -/
def publishCandidates (queue : List PeerAddr) : List PeerAddr → List PeerAddr
  | [] => queue
  | addr :: peers =>
    if queue.length < MAX_TRACKER_PEERS then
      publishCandidates (if addr ∈ queue then queue else queue ++ [addr]) peers
    else queue

/-- The worker counts a tracker it skips: `https://` is not supported. -/
def DiscoveryJob.skip (job : DiscoveryJob) (url : Bytes) : DiscoveryJob :=
  { job with
    httpsSkipped := if (lit "https://").isPrefixOf url then job.httpsSkipped + 1
      else job.httpsSkipped }

/-- The worker takes in what a tracker answers. -/
def DiscoveryJob.answered (job : DiscoveryJob) (response : Option TrackerResponse) : DiscoveryJob :=
  let job := { job with compatible := job.compatible + 1 }
  match response with
  | none => job
  | some r =>
    if r.failure then job
    else
      { job with
        contacted := job.contacted + 1
        result := { job.result with
          trackerInterval := max job.result.trackerInterval r.interval }
        peersReported := job.peersReported + r.peers.length
        queue := publishCandidates job.queue r.peers }

/-- Whether `announce_to_tracker` asks a tracker: neither one of another scheme
    nor that of `announce` again. -/
def DiscoveryJob.asks (job : DiscoveryJob) (primary : Bool) (url : Bytes) : Bool :=
  ((lit "http://").isPrefixOf url || (lit "udp://").isPrefixOf url) &&
    (primary || job.result.torrent.announce ≠ some url)

/-- The text for a round that brings no peers. -/
def DiscoveryJob.errorMsg (job : DiscoveryJob) : Bytes :=
  if job.contacted ≠ 0 then
    lit "Trackers responderam, mas não há peers disponíveis; nova tentativa automática"
  else if job.compatible ≠ 0 then
    lit "Falha ao consultar os trackers. Nova tentativa automática; consulte o log para detalhes."
  else if job.httpsSkipped ≠ 0 then
    lit "Este torrent só tem trackers HTTPS ou incompatíveis; HTTPS ainda não é suportado."
  else lit "Este torrent não tem trackers HTTP/UDP compatíveis."

/-- The worker has asked all trackers. -/
def DiscoveryJob.finished (job : DiscoveryJob) : DiscoveryJob :=
  { job with
    result := if job.peersReported > 0 then { job.result with errorType := .none, errorMsg := [] }
      else { job.result with errorType := .noPeers, errorMsg := snprintf 256 job.errorMsg }
    done := true }

/-- The failures of the trackers, and the wait that follows from them. -/
def countTrackerFailure (result mt : ManagedTorrent) : ManagedTorrent :=
  if result.errorType = .none then { mt with trackerFailures := 0 }
  else
    let failures := if mt.trackerFailures < 5 then mt.trackerFailures + 1 else mt.trackerFailures
    { mt with
      trackerFailures := failures
      trackerInterval := max mt.trackerInterval (retryDelay failures) }

/-- The error of a discovery counts if there are no peers anyway. -/
def adoptTrackerError (result mt : ManagedTorrent) : ManagedTorrent :=
  if mt.activePeers = 0 ∧ mt.peerCandidates = [] ∧
      (mt.errorType = .none ∨ mt.errorType = .noPeers) then
    { mt with errorType := result.errorType, errorMsg := snprintf 256 result.errorMsg }
  else mt

/-- What a finished discovery tells its torrent, at a time. -/
def ManagedTorrent.discovered (result : ManagedTorrent) (now : ℕ) (mt : ManagedTorrent) :
    ManagedTorrent :=
  adoptTrackerError result (countTrackerFailure result { mt with
    trackerAnnounces := result.trackerAnnounces
    trackerInterval := result.trackerInterval
    lastAnnounceTime := now })

def applyDiscovery (result : ManagedTorrent) (w : Work) : Work :=
  { w.next with
    mt := (result.discovered w.outcome.time w.mt).logRound
      (.collected w.outcome.time (result.errorType ≠ .none)) }

/-! ## Connections -/

/-- Move on to the next candidate. -/
def takeCandidate (w : Work) : Work :=
  { w with mt.nextCandidate := (w.mt.nextCandidate + 1) % w.mt.peerCandidates.length }

/-- No worker can be had for a candidate now. -/
def postponeCandidate (now index : ℕ) (w : Work) : Work :=
  { w with mt := w.mt.modifyCandidate index fun c => { c with retryAfter := now + 5 } }

/-- Start the worker of a slot, which connects to a candidate. -/
def launchConnection (slot index : ℕ) (addr : PeerAddr) (now : ℕ) (w : Work) : Work :=
  { w.schedule with
    peerConnectJobs := w.peerConnectJobs.set slot (some ⟨w.mt.generation, addr, [], none, false⟩)
    mt := (w.mt.modifyCandidate index fun c => { c with connecting := true }).log
      (.attempt addr now) }

/-- The loop over the candidates, of which `n` are still to be looked at. -/
def connectCandidates (now : ℕ) : ℕ → ℕ → Work → Work
  | 0, _, w => w
  | n + 1, pending, w =>
    if pending < PEER_CONNECT_PARALLEL ∧ w.mt.activePeers + pending < MAX_PEERS_PER_TORRENT then
      let index := w.mt.nextCandidate % w.mt.peerCandidates.length
      let w := takeCandidate w
      match w.mt.peerCandidates[index]? with
      | none => w
      | some c =>
        if c.connecting || now < c.retryAfter || peerIsConnected w.mt c.addr then
          connectCandidates now n pending w
        else
          match w.peerConnectJobs.findIdx? Option.isNone with
          | none => w
          | some slot =>
            -- The job, then its thread.
            if !w.outcome.succeeds then w.next
            else if !w.next.outcome.succeeds then postponeCandidate now index w.next.next
            else
              connectCandidates now n (pending + 1)
                (launchConnection slot index c.addr now w.next.next)
    else w

def schedulePeerConnections (w : Work) : Work :=
  let pending := w.peerConnectJobs.countP (·.any (·.generation = w.mt.generation))
  connectCandidates w.outcome.time w.mt.peerCandidates.length pending w.next

/-- The record of a new connection. -/
def TorrentPeer.ofConnection (sock : ℕ) (addr : PeerAddr) (remoteId : Bytes) (now : ℕ) :
    TorrentPeer where
  sock := some sock
  addr := addr
  peerId := remoteId
  choked := true
  amInterested := true
  lastRequest := 0
  downloaded := 0
  bitfield := none
  pieceData := none
  pieceSize := 0
  pieceReceived := 0
  pendingLength := 0
  requestTime := 0
  lastActivity := now
  transfer := ⟨none, none, []⟩

/-- A new connection: a record whose socket is closed, or else a new one, is used for it. -/
def addPeer (p : TorrentPeer) (mt : ManagedTorrent) : Option ManagedTorrent :=
  match mt.peers.findIdx? fun p => p.sock.isNone with
  | some slot => some { mt with peers := mt.peers.set slot p, activePeers := mt.activePeers + 1 }
  | none =>
    if mt.peers.length < MAX_PEERS_PER_TORRENT then
      some { mt with peers := mt.peers ++ [p], activePeers := mt.activePeers + 1 }
    else none

/-- What a connection attempt tells its torrent. -/
def applyConnection (job : PeerConnectJob) (w : Work) : Work :=
  let w :=
    { w with mt := w.mt.updateCandidate job.addr fun c => { c with connecting := false } }
  match job.sock with
  | none => recordPeerFailure job.addr w
  | some sock =>
    if peerIsConnected w.mt job.addr then w
    else
      let p := TorrentPeer.ofConnection sock job.addr job.remoteId w.outcome.time
      match addPeer p w.mt with
      | none => w
      | some mt => { w.next with mt := mt }

/-- Say why there is no progress, or that there is. -/
def updatePeerStatus (w : Work) : Work :=
  if w.mt.errorType ≠ .none ∧ w.mt.errorType ≠ .noPeers then w
  else
    let now := w.outcome.time
    let w := w.next
    let pending := w.mt.peerCandidates.countP (·.connecting)
    let nextRetry :=
      w.mt.peerCandidates.foldl (fun next c => min next c.retryAfter) (2 ^ 64 - 1)
    if w.mt.activePeers ≠ 0 ∨ pending ≠ 0 ∨
        w.mt.downloaded ≠ 0 ∧ sub64 now w.mt.lastProgressTime < 60 then
      { w with mt.errorType := .none, mt.errorMsg := [] }
    else if w.mt.peerCandidates ≠ [] ∧ nextRetry > now then
      { w with
        mt.errorType := .noPeers
        mt.errorMsg := snprintf 256 (lit "Peers indisponíveis; nova tentativa em " ++
          Decimal.print (nextRetry - now) ++ lit " s. Consulte o log para detalhes.") }
    else w

/-! ## Web seeds -/

/-- The sizes of the free pieces from `index` on that go into a batch: at most
    `n`, and as long as their total stays below the limit. -/
def batchSizes (mt : ManagedTorrent) : ℕ → ℕ → ℕ → List ℕ
  | 0, _, _ => []
  | n + 1, index, totalSize =>
    if index ≥ mt.torrent.numPieces then []
    else if mt.pieceMgr.state index ≠ some .free then []
    else
      let size := torrentPieceSize mt.torrent index
      if size = 0 ∨ totalSize + size > ASSEMBLY_LIMIT then []
      else size :: batchSizes mt n (index + 1) (totalSize + size)

/-- The batch of pieces to fetch next: the first one, and their sizes. -/
def webSeedBatch (mt : ManagedTorrent) : Option (ℕ × List ℕ) :=
  match pieceMgrGetNext mt.pieceMgr none with
  | none => none
  | some first =>
    let sizes := batchSizes mt WEB_SEED_BATCH_PIECES first 0
    if sizes = [] then none else some (first, sizes)

/-- The job for a batch. -/
def webSeedJob (mt : ManagedTorrent) (first : ℕ) (sizes : List ℕ) : WebSeedJob where
  generation := mt.generation
  firstPiece := first
  pieceSizes := sizes
  totalSize := sizes.sum
  data := List.replicate sizes.sum 0
  torrent := torrentCloneForWorker mt.torrent
  ok := false
  done := false

def webSeedActiveCount (w : Work) : ℕ :=
  w.webSeedJobs.countP (·.any (·.generation = w.mt.generation))

/-- Set the state of `n` pieces, from a piece on. -/
def PieceMgr.setStates (state : PieceState) : ℕ → ℕ → PieceMgr → PieceMgr
  | 0, _, pm => pm
  | n + 1, first, pm => setStates state n (first + 1) (pm.setState first state)

/-- `piece_mgr_request` for `n` pieces. -/
def requestPieces : ℕ → ℕ → PieceMgr → PieceMgr
  | 0, _, pm => pm
  | n + 1, first, pm => requestPieces n (first + 1) (pieceMgrRequest pm first)

/-- Request the pieces of a batch and start the worker of a slot, which fetches
    them; whether it can be started. -/
def launchWebSeed (slot first : ℕ) (sizes : List ℕ) (w : Work) : Bool × Work :=
  let pm := requestPieces sizes.length first w.mt.pieceMgr
  if !w.outcome.succeeds then
    (false, { w.next with mt.pieceMgr := pm.setStates .free sizes.length first })
  else
    (true, { w.next.schedule with
      mt.pieceMgr := pm
      webSeedJobs := w.webSeedJobs.set slot (some (webSeedJob w.mt first sizes)) })

/-- Schedule a batch, if there is one; whether it was. -/
def scheduleWebSeedOne (w : Work) : Bool × Work :=
  if w.mt.torrent.webSeeds = [] then (false, w)
  else if webSeedActiveCount w ≥ WEB_SEED_PARALLEL_PER_TORRENT then (false, w)
  else
    match w.webSeedJobs.findIdx? Option.isNone, webSeedBatch w.mt with
    | some slot, some (first, sizes) =>
      -- The job, then its data and the clone.
      if !w.outcome.succeeds then (false, w.next)
      else if !w.next.outcome.succeeds || !w.next.next.outcome.succeeds then
        (false, w.next.next.next)
      else launchWebSeed slot first sizes w.next.next.next
    | _, _ => (false, w)

/-- `while (schedule_web_seed_one(mt)) {}`; each batch counts against the limit
    for a torrent, so `n` rounds are enough. -/
def scheduleWebSeeds : ℕ → Work → Work
  | 0, w => w
  | n + 1, w =>
    match scheduleWebSeedOne w with
    | (true, w) => scheduleWebSeeds n w
    | (false, w) => w

def scheduleWebSeed (w : Work) : Work := scheduleWebSeeds (WEB_SEED_PARALLEL_PER_TORRENT + 1) w

/-- The worker of a batch: it leaves the data of the pieces, and whether it has them all. -/
def fetchWebSeedPiece (net : Net) (job : WebSeedJob) : WebSeedJob :=
  let call := webSeedFetchPieces net job.torrent job.firstPiece job.pieceSizes
  { job with
    data := (Effect.final call ⟨job.data, 0⟩).buffer
    ok := Effect.succeeds call ⟨job.data, 0⟩
    done := true }

/-- Verify, write and count a piece of a batch. -/
def commitPiece (index : ℕ) (data : Bytes) (w : Work) : Bool × Work :=
  if sha1Hash data ≠ w.mt.torrent.pieceHash index then (false, w)
  else
    let (ok, w) := w.writePiece index data
    if !ok then (false, w)
    else
      let (ok, pm) := pieceMgrComplete w.mt.pieceMgr index data
      (ok, { w with mt.pieceMgr := pm })

/-- The loop over the pieces of a batch, up to the first that fails: whether
    none does, and how many were saved. -/
def commitPieces (data : Bytes) : ℕ → ℕ → ℕ → List ℕ → Work → Bool × ℕ × Work
  | _, _, saved, [], w => (true, saved, w)
  | index, offset, saved, size :: sizes, w =>
    if index ≥ w.mt.pieceMgr.numPieces ∨ w.mt.pieceMgr.state index = some .complete then
      commitPieces data (index + 1) (offset + size) saved sizes w
    else
      match commitPiece index ((data.drop offset).take size) w with
      | (false, w) =>
        (false, saved, { w with mt.pieceMgr := w.mt.pieceMgr.setState index .free })
      | (true, w) =>
        commitPieces data (index + 1) (offset + size) (saved + 1) sizes
          { w with mt.downloaded := toSize (w.mt.downloaded + size) }

/-- Free `n` pieces, from a piece on, unless they are complete. -/
def freePieces : ℕ → ℕ → PieceMgr → PieceMgr
  | 0, _, pm => pm
  | n + 1, first, pm =>
    freePieces n (first + 1)
      (if first < pm.numPieces ∧ pm.state first ≠ some .complete then pm.setState first .free
      else pm)

/-- Note the time, if pieces were saved. -/
def noteProgress (saved : ℕ) (w : Work) : Work :=
  if saved ≠ 0 then { w.next with mt.lastProgressTime := w.outcome.time } else w

/-- What a batch brings its torrent. -/
def applyWebSeed (job : WebSeedJob) (w : Work) : Work :=
  if job.firstPiece ≥ w.mt.pieceMgr.numPieces then w
  else if job.ok then
    match commitPieces job.data job.firstPiece 0 0 job.pieceSizes w with
    | (ok, saved, w) =>
      let w := noteProgress saved w
      if ok then w
      else
        { w with mt.pieceMgr :=
            freePieces (job.pieceSizes.length - saved) (job.firstPiece + saved) w.mt.pieceMgr }
  else
    { w with mt.pieceMgr := freePieces job.pieceSizes.length job.firstPiece w.mt.pieceMgr }

/-! ## Collection -/

namespace TorrentMgr

/-- The torrent of a generation that is downloading: the last one, if several were. -/
def live (m : TorrentMgr) (generation : ℕ) : Option ℕ :=
  (List.range m.torrents.length).reverse.find? fun i =>
    m.torrents[i]?.any fun mt => mt.generation = generation && mt.state = .downloading

/-- Work on the live torrent of a generation, if there is one. -/
def onLive (m : TorrentMgr) (generation : ℕ) (f : Work → Work) : TorrentMgr :=
  match m.live generation with
  | none => m
  | some i => m.onTorrent i f

/-- Collect the batch in a slot, if it is done. -/
def collectWebSeedJob (m : TorrentMgr) (slot : ℕ) : TorrentMgr :=
  match m.webSeedJobs[slot]?.join with
  | none => m
  | some job =>
    if !job.done then m
    else
      let m := m.onLive job.generation (applyWebSeed job)
      { m with webSeedJobs := m.webSeedJobs.set slot none }

/-- Collect the connection attempt in a slot, if it is done. -/
def collectPeerConnectJob (m : TorrentMgr) (slot : ℕ) : TorrentMgr :=
  match m.peerConnectJobs[slot]?.join with
  | none => m
  | some job =>
    if !job.done then m
    else
      let m := m.onLive job.generation (applyConnection job)
      { m with peerConnectJobs := m.peerConnectJobs.set slot none }

/-- Take the addresses that the discovery in a slot has found so far, and
    collect it if it is done. -/
def collectDiscoveryJob (m : TorrentMgr) (slot : ℕ) : TorrentMgr :=
  match m.discoveryJobs[slot]?.join with
  | none => m
  | some job =>
    let generation := job.result.generation
    let m := m.onLive generation fun w =>
      { w with mt := job.queue.foldl (fun mt addr => addCandidate addr mt) w.mt }
    if !job.done then
      { m with discoveryJobs := m.discoveryJobs.set slot (some { job with queue := [] }) }
    else
      let m := m.onLive generation (applyDiscovery job.result)
      { m with discoveryJobs := m.discoveryJobs.set slot none }

def collectWebSeed (m : TorrentMgr) : TorrentMgr :=
  (List.range WEB_SEED_MAX_JOBS).foldl collectWebSeedJob m

def collectDiscovery (m : TorrentMgr) : TorrentMgr :=
  (List.range MAX_TORRENTS).foldl collectDiscoveryJob m

def collectPeerConnections (m : TorrentMgr) : TorrentMgr :=
  (List.range PEER_CONNECT_MAX_JOBS).foldl collectPeerConnectJob m

end TorrentMgr

end PS5Torrent
