import PS5Torrent.TorrentMgr.Jobs
import PS5Torrent.SavePath

/-!
# The torrent manager

`torrent_mgr.c`: torrents are added, started, stopped and removed by their
index, and `torrent_mgr_tick` collects the finished background jobs and then
lets every downloading torrent make progress. A run is a list of events, each
a call of the manager or a step of a background worker; the state after a run
is that between two calls.

Metainfo comes from a request or from a file that the console reads, neither
longer than `HTTP_MAX_BODY` bytes.
-/

namespace PS5Torrent

/-! ## Save directories -/

/-- Make a directory, unless it exists. -/
def ensureDirectory (path : Bytes) : SysM Unit := do
  mkdirIfAbsent path
  let isDir ← stat path
  if isDir then pure ()
  else do
    setErrno .ENOTDIR
    throw ()

/-- The loop of `ensure_directory_tree`, past the prefix `done`. -/
def ensureDirectories (done : Bytes) : Bytes → SysM Unit
  | [] => ensureDirectory done
  | c :: rest =>
    if c ≠ chr '/' then ensureDirectories (done ++ [c]) rest
    else do
      ensureDirectory done
      ensureDirectories (done ++ [c]) rest

def ensureDirectoryTree (path : Bytes) : SysM Unit :=
  if path.head? ≠ some (chr '/') then do
    setErrno .EINVAL
    throw ()
  else if path.length ≥ 512 then do
    setErrno .ENAMETOOLONG
    throw ()
  else
    match path.take (trimSlashes path path.length) with
    | [] => throw ()
    | c :: rest => ensureDirectories [c] rest

/-! ## Calls on one torrent -/

/-- `strncpy(dst, src, size - 1)` into a cleared buffer. -/
def strncpy (size : ℕ) (src : Bytes) : Bytes := (cstr src).take (size - 1)

/-- Lower-case hexadecimal digits. -/
def torrentInfoHashStr (infoHash : Bytes) : Bytes :=
  infoHash.flatMap fun c =>
    let digit (n : ℕ) : UInt8 := (lit "0123456789abcdef").getD n 0
    [digit (c.toNat / 16), digit (c.toNat % 16)]

/-- The record of a torrent that is added. -/
def ManagedTorrent.added (generation : ℕ) (t : Torrent) (savePath : Bytes) (isMagnet : Bool)
    (magnetUri peerId : Bytes) : ManagedTorrent where
  id := strncpy 64 (torrentInfoHashStr t.infoHash)
  generation := generation
  name :=
    match t.name with
    | some name => strncpy 256 name
    | none => snprintf 256 (lit "Torrent_" ++ torrentInfoHashStr t.infoHash)
  savePath := strncpy 512 savePath
  infoHash := t.infoHash
  state := .stopped
  errorType := .none
  errorMsg := []
  torrent := t
  pieceMgr := .cleared
  fileWriter := .unused
  peerId := peerId
  peers := []
  activePeers := 0
  peerCandidates := []
  nextCandidate := 0
  downloaded := 0
  uploaded := 0
  totalSize := t.totalSize.toNat
  trackerAnnounces := 0
  trackerInterval := 0
  trackerFailures := 0
  speedDown := 0
  speedUp := 0
  lastAnnounceTime := 0
  lastProgressTime := 0
  lastSpeedCalc := 0
  lastDownloaded := 0
  lastUploaded := 0
  startTime := 0
  isMagnet := isMagnet
  magnetUri := strncpy 1024 magnetUri
  writes := []
  peerLog := []
  rounds := []
  strdupFailed := false

/-- `for (int i = 0; i < mt->num_peers; i++) disconnect_peer(mt, &mt->peers[i]);` -/
def disconnectPeers (w : Work) : Work :=
  (List.range w.mt.peers.length).foldl (fun w i => disconnectPeer i w) w

/-- A stopped torrent gets a generation that no job has. -/
def renewTorrent (w : Work) : Work :=
  { w with
    mt.state := .stopped
    mt.generation := w.nextGeneration
    mt.peerLog := []
    mt.rounds := []
    mt.strdupFailed := false
    nextGeneration := w.nextGeneration + 1 }

/-- `torrent_mgr_stop` -/
def stopTorrent (w : Work) : Work :=
  let w := disconnectPeers (renewTorrent w)
  { w with
    mt.peers := []
    mt.activePeers := 0
    mt.peerCandidates := []
    mt.nextCandidate := 0
    mt.trackerFailures := 0
    mt.speedDown := 0
    mt.speedUp := 0
    mt.fileWriter := fileWriterFinish w.mt.fileWriter }

/-- What a start drops of an earlier one. -/
def resetTorrent (w : Work) : Work :=
  let w :=
    if w.mt.pieceMgr.pieces.isSome || w.mt.fileWriter.basePath.isSome then
      let w := stopTorrent w
      { w with
        mt.pieceMgr := pieceMgrDestroy w.mt.pieceMgr
        mt.fileWriter := fileWriterDestroy w.mt.fileWriter }
    else w
  { w with mt.downloaded := 0, mt.errorType := .none, mt.errorMsg := [], mt.writes := [] }

/-- The error of a start whose directory cannot be made. -/
def directoryError (w : Work) : Bytes :=
  if w.sys.errno = .EACCES ∨ w.sys.errno = .EPERM then
    lit "Sem permissão para criar " ++ w.mt.savePath
  else
    lit "Não foi possível criar " ++ w.mt.savePath ++ lit ": " ++ w.strerror w.sys.errno

/-- The record of a torrent whose download begins. -/
def beginDownload (w : Work) : Work :=
  { w.next.next with
    mt.state := .downloading
    mt.startTime := w.outcome.time
    mt.lastAnnounceTime := 0
    mt.lastProgressTime := w.outcome.time
    mt.lastSpeedCalc := w.next.outcome.time
    mt.lastDownloaded := w.mt.downloaded
    mt.lastUploaded := w.mt.uploaded }

/-- The end of a start, once the directory is there: the piece manager and the
    file writer are set up. -/
def openTorrent (w : Work) : Bool × Work :=
  if w.mt.isMagnet && w.mt.torrent.numPieces = 0 then
    (false, w.fail .parseFailed (lit "Magnet links require metadata download (BEP-9) - " ++
      lit "use a .torrent file instead"))
  else
    let pm := pieceMgrInit w.outcome.succeeds w.next.outcome.succeeds w.mt.torrent
    let w := { w.next.next with mt.pieceMgr := pm }
    if pm.pieces.isNone || pm.bitfield.isNone then
      (false, w.fail .parseFailed (lit "Not enough memory for torrent pieces"))
    else
      match fileWriterInit w.outcome.succeeds w.mt.torrent w.mt.savePath w.sys with
      | .ok fw sys => (true, beginDownload { w.next with sys := sys, mt.fileWriter := fw })
      | .error fw sys =>
        let errorMsg := lit "Não foi possível criar o arquivo em " ++ w.mt.savePath ++ lit ": " ++
          w.strerror sys.errno
        (false,
          { w.next with
            sys := sys
            mt.fileWriter := fw
            mt.strdupFailed := !w.outcome.succeeds : Work }.fail .writeFailed errorMsg)

/-- `torrent_mgr_start` -/
def startTorrent (w : Work) : Bool × Work :=
  if w.mt.state = .downloading ∨ w.mt.state = .seeding ∨ w.mt.state = .done then
    (true, { w with mt.errorType := .none, mt.errorMsg := [] })
  else
    let w := resetTorrent w
    match ensureDirectoryTree w.mt.savePath w.sys with
    | .error _ sys =>
      let w := { w with sys := sys }
      (false, w.fail .writeFailed (directoryError w))
    | .ok _ sys => openTorrent { w with sys := sys }

/-- A torrent that is complete stops downloading. -/
def completeTorrent (w : Work) : Work :=
  let w := disconnectPeers w
  { w with
    mt.fileWriter := fileWriterFinish w.mt.fileWriter
    mt.state := .done
    mt.speedDown := 0
    mt.speedUp := 0 }

/-- The speeds, taken every two seconds. -/
def updateSpeed (now : ℕ) (w : Work) : Work :=
  if now > w.mt.lastSpeedCalc ∧ sub64 now w.mt.lastSpeedCalc ≥ 2 then
    let elapsed := sub64 now w.mt.lastSpeedCalc
    { w with
      mt.speedDown := sub64 w.mt.downloaded w.mt.lastDownloaded / elapsed
      mt.speedUp := sub64 w.mt.uploaded w.mt.lastUploaded / elapsed
      mt.lastSpeedCalc := now
      mt.lastDownloaded := w.mt.downloaded
      mt.lastUploaded := w.mt.uploaded }
  else w

/-- Ask the trackers again when it is time to. -/
def announce (now : ℕ) (w : Work) : Work :=
  if w.mt.lastAnnounceTime = 0 ∨ w.mt.trackerInterval > 0 ∧
      sub64 now w.mt.lastAnnounceTime ≥ w.mt.trackerInterval.toNat then scheduleDiscovery now w
  else w

/-- The part of `torrent_mgr_tick` for one torrent. -/
def tickTorrent (now : ℕ) (w : Work) : Work :=
  if w.mt.state ≠ .downloading then w
  else if pieceMgrIsDone w.mt.pieceMgr then completeTorrent w
  else
    let w := announce now (updateSpeed now w)
    let w := (List.range w.mt.peers.length).foldl (fun w i => processPeer i w) w
    updatePeerStatus (scheduleWebSeed (schedulePeerConnections w))

/-! ## Calls -/

namespace TorrentMgr

/-- The manager when the program starts. -/
def init (sys : Sys) (strerror : Errno → Bytes) (env : ℕ → Outcome) : TorrentMgr where
  sys := sys
  strerror := strerror
  env := env
  queries := 0
  nextGeneration := 1
  assemblyBytes := 0
  discoveryJobs := List.replicate MAX_TORRENTS none
  peerConnectJobs := List.replicate PEER_CONNECT_MAX_JOBS none
  webSeedJobs := List.replicate WEB_SEED_MAX_JOBS none
  requests := []
  announces := []
  releases := []
  failures := []
  scheduled := []
  torrents := []

/-- `torrent_mgr_add`, with the peer id that is drawn; the index of the torrent, if it is added. -/
def torrentMgrAdd (m : TorrentMgr) (t : Torrent) (savePath : Bytes) (isMagnet : Bool)
    (magnetUri peerId : Bytes) : Option ℕ × TorrentMgr :=
  if m.torrents.length ≥ MAX_TORRENTS then (none, m)
  else
    (some m.torrents.length,
      { m with
        nextGeneration := m.nextGeneration + 1
        torrents := m.torrents ++
          [.added m.nextGeneration t savePath isMagnet magnetUri peerId] })

def torrentMgrAddRaw (m : TorrentMgr) (data savePath peerId : Bytes) : Option ℕ × TorrentMgr :=
  match torrentParse data with
  | none => (none, m)
  | some t => m.torrentMgrAdd t savePath false [] peerId

/-- Whether the call succeeds. -/
def torrentMgrStart (m : TorrentMgr) (index : ℤ) : Bool × TorrentMgr :=
  if index < 0 ∨ index ≥ m.torrents.length then (false, m)
  else
    match m.torrents[index.toNat]? with
    | none => (false, m)
    | some mt =>
      ((startTorrent { toWorld := m.toWorld, mt := mt }).1,
        m.onTorrent index.toNat fun w => (startTorrent w).2)

def torrentMgrStop (m : TorrentMgr) (index : ℤ) : TorrentMgr :=
  if index < 0 ∨ index ≥ m.torrents.length then m else m.onTorrent index.toNat stopTorrent

/-- The torrent is stopped, its record dropped and the later ones shifted. -/
def torrentMgrRemove (m : TorrentMgr) (index : ℤ) : TorrentMgr :=
  if index < 0 ∨ index ≥ m.torrents.length then m
  else
    let m := m.torrentMgrStop index
    { m with torrents := m.torrents.eraseIdx index.toNat }

/-- Let every torrent make progress, at a time. -/
def tickTorrents (m : TorrentMgr) (now : ℕ) : TorrentMgr :=
  (List.range m.torrents.length).foldl (fun m i => m.onTorrent i (tickTorrent now)) m

/-- `torrent_mgr_tick`, with the number of torrents that were downloading. -/
def torrentMgrTick (m : TorrentMgr) : ℕ × TorrentMgr :=
  let m := m.collectWebSeed.collectDiscovery.collectPeerConnections
  let now := (m.env m.queries).time
  (m.torrents.countP (·.state = .downloading),
    { m with queries := m.queries + 1 : TorrentMgr }.tickTorrents now)

end TorrentMgr

/-! ## Runs -/

/-- The metainfo made from a magnet link: it has no pieces. -/
def magnetTorrent (infoHash : Bytes) (name : Option Bytes) (trackers : List Bytes) : Torrent where
  announce := trackers.head?
  announceList := trackers
  webSeeds := []
  infoDictRaw := []
  infoHash := infoHash
  name := name
  pieceLength := 0
  pieces := none
  numPieces := 0
  isMultiFile := false
  totalSize := 0
  length := 0
  fileName := none
  files := []

/-- A call of the manager, or a step of a worker: a web seed worker finishes,
    against the servers of a network; a connection attempt ends; a discovery
    worker comes to its next tracker, which may answer, or ends after the last. -/
inductive Event
  | addRaw (data savePath peerId : Bytes)
  | addMagnet (infoHash : Bytes) (name : Option Bytes) (trackers : List Bytes)
      (uri savePath peerId : Bytes)
  | start (index : ℤ)
  | stop (index : ℤ)
  | remove (index : ℤ)
  | tick
  | webSeedDone (slot : ℕ) (net : Net)
  | peerConnectDone (slot : ℕ) (sock : Option ℕ) (remoteId : Bytes)
  | announce (slot : ℕ) (response : Option TrackerResponse)
  | discoveryDone (slot : ℕ)

/-- Let the worker in a slot take a step, if it is not done. -/
def runWorker {Job : Type} (done : Job → Bool) (f : Job → Job) (slot : ℕ)
    (jobs : List (Option Job)) : List (Option Job) :=
  jobs.modify slot (·.map fun job => if done job then job else f job)

namespace TorrentMgr

/-- The discovery worker in a slot comes to its next tracker, which may answer. -/
def announceNext (m : TorrentMgr) (slot : ℕ) (response : Option TrackerResponse) : TorrentMgr :=
  match m.discoveryJobs[slot]?.join with
  | none => m
  | some job =>
    match job.urls with
    | [] => m
    | (primary, url) :: urls =>
      if !job.asks primary url then
        { m with discoveryJobs := m.discoveryJobs.set slot (some { job.skip url with urls := urls }) }
      else
        { m with
          queries := m.queries + 1
          discoveryJobs :=
            m.discoveryJobs.set slot (some { job.answered response with urls := urls })
          announces := ⟨job.result.generation, job.result.torrent, url, (m.env m.queries).time,
            response.bind fun r => if r.failure then none else some r.interval⟩ :: m.announces }

def step (m : TorrentMgr) : Event → TorrentMgr
  | .addRaw data savePath peerId =>
    if data.length ≤ HTTP_MAX_BODY then (m.torrentMgrAddRaw data savePath peerId).2 else m
  | .addMagnet infoHash name trackers uri savePath peerId =>
    (m.torrentMgrAdd (magnetTorrent infoHash name trackers) savePath true uri peerId).2
  | .start index => (m.torrentMgrStart index).2
  | .stop index => m.torrentMgrStop index
  | .remove index => m.torrentMgrRemove index
  | .tick => m.torrentMgrTick.2
  | .webSeedDone slot net =>
    { m with webSeedJobs := runWorker WebSeedJob.done (fetchWebSeedPiece net) slot m.webSeedJobs }
  | .peerConnectDone slot sock remoteId =>
    { m with
      peerConnectJobs := runWorker PeerConnectJob.done
        (fun job => { job with sock, remoteId, done := true }) slot m.peerConnectJobs }
  | .announce slot response => m.announceNext slot response
  | .discoveryDone slot =>
    { m with
      discoveryJobs := runWorker (fun job => job.done || job.urls ≠ [])
        DiscoveryJob.finished slot m.discoveryJobs }

/-- The state after a run. -/
def run (m : TorrentMgr) (events : List Event) : TorrentMgr := events.foldl step m

end TorrentMgr

/-- The states that runs reach from the start of the program. -/
def Reachable (m : TorrentMgr) : Prop :=
  ∃ sys strerror env events, m = (TorrentMgr.init sys strerror env).run events

end PS5Torrent
