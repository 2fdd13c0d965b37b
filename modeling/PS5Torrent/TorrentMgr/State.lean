import PS5Torrent.PieceMgr
import PS5Torrent.FileIo
import PS5Torrent.PeerWire
import PS5Torrent.WebSeed
import PS5Torrent.Torrent.Geometry

/-!
# The state of the torrent manager

The records of `torrent_mgr.h` and the static variables of `torrent_mgr.c`:
the managed torrents with their peers, and the tables of background jobs.

The environment is a tape of outcomes, one for each query the manager makes
of it: a reading of the clock, an allocation or the creation of a thread, a
message received from a peer or a request sent to it (`Outcome`). A function
that works on one torrent takes it together with the state all torrents share
(`Work`); a table of jobs is a list of slots.

A peer record whose index is `num_peers` or above is never read; the peers are
the list of the records below. A generation number is not reused: it is a
64-bit counter that grows by one with each addition and stop.
-/

namespace PS5Torrent

/-- The most torrents managed at a time. -/
def MAX_TORRENTS : ℕ := 8

def MAX_PEERS_PER_TORRENT : ℕ := 50

def MAX_TRACKER_PEERS : ℕ := 200

def ASSEMBLY_LIMIT : ℕ := 64 * 1024 * 1024

def CHOKED_PEER_TIMEOUT : ℕ := 45

def PEER_CONNECT_PARALLEL : ℕ := 4

def PEER_CONNECT_MAX_JOBS : ℕ := MAX_TORRENTS * PEER_CONNECT_PARALLEL

def WEB_SEED_PARALLEL_PER_TORRENT : ℕ := 4

def WEB_SEED_BATCH_PIECES : ℕ := 4

def WEB_SEED_MAX_JOBS : ℕ := MAX_TORRENTS * WEB_SEED_PARALLEL_PER_TORRENT

def PEER_BLOCK_SIZE : ℕ := 16 * 1024

/-- The difference of two `uint64_t` or `size_t` values. -/
def sub64 (a b : ℕ) : ℕ := (toUInt64 ((a : ℤ) - b)).toNat

theorem sub64_of_le {a b : ℕ} (h : b ≤ a) (ha : a < 2 ^ 64) : sub64 a b = a - b := by
  rw [sub64, toUInt64, Int.emod_eq_of_lt (by omega) (by omega)]
  omega

/-! ## Torrents -/

inductive TorrentState
  | stopped
  | downloading
  | seeding
  | error
  | done
deriving DecidableEq

inductive TorrentError
  | none
  | parseFailed
  | trackerFailed
  | noPeers
  | writeFailed
  | hashMismatch
deriving DecidableEq

/-- A peer address; a port is at most `65535`. -/
structure PeerAddr where
  ip : ℕ
  port : ℕ
deriving DecidableEq

/-- A block request. -/
structure BlockRequest where
  sock : Option ℕ
  index : ℕ
  begin : ℕ
  length : ℕ
deriving DecidableEq

/-- The history of the piece of a peer: its state and the bitfield of the peer
    when the piece was claimed, and the blocks accepted since, from the last
    one back, each with the request that was outstanding. -/
structure Transfer where
  state : Option PieceState
  bitfield : Option Bytes
  blocks : List (BlockRequest × Bytes)

/-- A peer connection; `sock` is `none` where the source has `-1`. `transfer`
    is a history variable. -/
structure TorrentPeer where
  sock : Option ℕ
  addr : PeerAddr
  peerId : Bytes
  choked : Bool
  amInterested : Bool
  lastRequest : ℕ
  downloaded : ℕ
  bitfield : Option Bytes
  pieceData : Option Bytes
  pieceSize : ℕ
  pieceReceived : ℕ
  pendingLength : ℕ
  requestTime : ℕ
  lastActivity : ℕ
  transfer : Transfer

structure PeerCandidate where
  addr : PeerAddr
  failures : ℕ
  retryAfter : ℕ
  connecting : Bool
deriving DecidableEq

/-- What happens to a peer address: a failure is recorded at a time, a piece of
    its peer is verified, a connection attempt starts at a time, or the
    candidate is replaced by another one. -/
inductive PeerLog
  | failed (addr : PeerAddr) (time : ℕ)
  | verified (addr : PeerAddr)
  | attempt (addr : PeerAddr) (time : ℕ)
  | replaced (addr : PeerAddr)
deriving DecidableEq

/-- What happens in the rounds of tracker requests: a round starts, or it is
    collected, with whether no tracker reported a peer. -/
inductive RoundLog
  | started (time : ℕ)
  | collected (time : ℕ) (failed : Bool)
deriving DecidableEq

/-- A call of `file_writer_write_piece`, with whether it succeeded. -/
structure PieceWrite where
  index : ℕ
  data : Bytes
  ok : Bool

/-- A managed torrent. Four fields are history variables. Three are lists from
    the last entry back: `writes` has the pieces handed to the file writer since
    the last start, `peerLog` what happened to peer addresses in the generation,
    and `rounds` its rounds of tracker requests. `strdupFailed` tells whether a
    start in the generation could not copy the path for the file writer. -/
structure ManagedTorrent where
  id : Bytes
  generation : ℕ
  name : Bytes
  savePath : Bytes
  infoHash : Bytes
  state : TorrentState
  errorType : TorrentError
  errorMsg : Bytes
  torrent : Torrent
  pieceMgr : PieceMgr
  fileWriter : FileWriter
  peerId : Bytes
  peers : List TorrentPeer
  activePeers : ℤ
  peerCandidates : List PeerCandidate
  nextCandidate : ℕ
  downloaded : ℕ
  uploaded : ℕ
  totalSize : ℕ
  trackerAnnounces : ℤ
  trackerInterval : ℤ
  trackerFailures : ℕ
  speedDown : ℕ
  speedUp : ℕ
  lastAnnounceTime : ℕ
  lastProgressTime : ℕ
  lastSpeedCalc : ℕ
  lastDownloaded : ℕ
  lastUploaded : ℕ
  startTime : ℕ
  isMagnet : Bool
  magnetUri : Bytes
  writes : List PieceWrite
  peerLog : List PeerLog
  rounds : List RoundLog
  strdupFailed : Bool

/-! ## Background jobs -/

/-- The tracker worker of a torrent; `result` is a copy of the torrent. The URLs
    still to be asked, of which the first may be that of `announce`, and the
    counters are the local variables of `announce_to_tracker`. -/
structure DiscoveryJob where
  result : ManagedTorrent
  urls : List (Bool × Bytes)
  compatible : ℕ
  httpsSkipped : ℕ
  contacted : ℕ
  peersReported : ℕ
  queue : List PeerAddr
  done : Bool

/-- What `tracker_announce` returns. -/
structure TrackerResponse where
  failure : Bool
  interval : ℤ
  peers : List PeerAddr

/-- A worker that connects to a peer. -/
structure PeerConnectJob where
  generation : ℕ
  addr : PeerAddr
  remoteId : Bytes
  sock : Option ℕ
  done : Bool

/-- A worker that fetches the pieces from `firstPiece` on, of the sizes
    `pieceSizes`, from web seeds. -/
structure WebSeedJob where
  generation : ℕ
  firstPiece : ℕ
  pieceSizes : List ℕ
  totalSize : ℕ
  data : Bytes
  torrent : Torrent
  ok : Bool
  done : Bool

/-! ## The environment -/

/-- What the environment answers to a query: the time in seconds, whether an
    allocation, the creation of a thread or a send succeeds, what a peer sent. -/
structure Outcome where
  time : ℕ
  succeeds : Bool
  event : RecvEvent

/-- A block request that was sent, with the peer record before. -/
structure SentRequest where
  peer : TorrentPeer
  request : BlockRequest

/-- An announce that was sent for a torrent, with the interval the tracker returned. -/
structure Announce where
  generation : ℕ
  torrent : Torrent
  url : Bytes
  time : ℕ
  interval : Option ℤ

/-- A release of the buffer of a piece, with `assembly_bytes` before. -/
structure Release where
  assemblyBytes : ℕ
  pieceSize : ℕ

/-- A job that was scheduled, with the state of its torrent. -/
structure ScheduledJob where
  generation : ℕ
  state : TorrentState
deriving DecidableEq

/-- What the torrents share. Five fields are history variables, from the last
    entry back: the block requests sent, the announces, the releases, the
    generations of the torrents that work on a peer has stopped with an error,
    and the jobs scheduled. -/
structure World where
  sys : Sys
  strerror : Errno → Bytes
  env : ℕ → Outcome
  queries : ℕ
  nextGeneration : ℕ
  assemblyBytes : ℕ
  discoveryJobs : List (Option DiscoveryJob)
  peerConnectJobs : List (Option PeerConnectJob)
  webSeedJobs : List (Option WebSeedJob)
  requests : List SentRequest
  announces : List Announce
  releases : List Release
  failures : List ℕ
  scheduled : List ScheduledJob

/-- One torrent and what it shares with the others. -/
structure Work extends World where
  mt : ManagedTorrent

/-- The state of the manager. -/
structure TorrentMgr extends World where
  torrents : List ManagedTorrent

namespace Work

/-- The answer to the next query. -/
def outcome (w : Work) : Outcome := w.env w.queries

/-- The state after the query. -/
def next (w : Work) : Work := { w with queries := w.queries + 1 }

/-- Add a job of the torrent to the history. -/
def schedule (w : Work) : Work :=
  { w with scheduled := ⟨w.mt.generation, w.mt.state⟩ :: w.scheduled }

/-- `mt->peers[i] = p` -/
def setPeer (w : Work) (i : ℕ) (p : TorrentPeer) : Work := { w with mt.peers := w.mt.peers.set i p }

/-- Call `file_writer_write_piece` for the torrent. -/
def writePiece (w : Work) (index : ℕ) (data : Bytes) : Bool × Work :=
  let call := fileWriterWritePiece w.mt.fileWriter data index
  (Effect.succeeds call w.sys,
    { w with
      sys := Effect.final call w.sys
      mt.writes := ⟨index, data, Effect.succeeds call w.sys⟩ :: w.mt.writes })

end Work

namespace TorrentMgr

/-- Work on one of the torrents. -/
def onTorrent (m : TorrentMgr) (i : ℕ) (f : Work → Work) : TorrentMgr :=
  match m.torrents[i]? with
  | none => m
  | some mt =>
    let w := f { toWorld := m.toWorld, mt := mt }
    { toWorld := w.toWorld, torrents := m.torrents.set i w.mt }

end TorrentMgr

end PS5Torrent
