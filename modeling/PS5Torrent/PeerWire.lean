import PS5Torrent.Basic
import PS5Torrent.Library.Receiver

/-!
# Messages of a peer

`peer_recv_event` of `peer_wire.c`, for a timeout of 0, and `net_recv_exact` of
`net_utils.c`: the decoder of the messages a peer sends after the handshake.

Allocation succeeds, also of 0 bytes, `FIONREAD` reports the bytes that have
arrived, and the connection ends only by its closing. No call is interrupted.
-/

namespace PS5Torrent

open Receiver

def PEER_MSG_KEEPALIVE : ℤ := -1

def PEER_MSG_CHOKE : ℤ := 0

def PEER_MSG_UNCHOKE : ℤ := 1

def PEER_MSG_NOT_INTERESTED : ℤ := 3

def PEER_MSG_HAVE : ℤ := 4

def PEER_MSG_BITFIELD : ℤ := 5

def PEER_MSG_REQUEST : ℤ := 6

def PEER_MSG_PIECE : ℤ := 7

def PEER_MSG_CANCEL : ℤ := 8

/-- The size of the buffer for a payload. -/
def PAYLOAD_LIMIT : ℕ := 256 * 1024

/-- What `peer_recv_event` finds: no complete frame, the end of the connection
    or an invalid frame, or a message. Where a message has no index, offset or
    payload, the values its caller initializes them with are kept. -/
inductive RecvEvent
  | incomplete
  | error
  | message (type : ℤ) (index begin : ℕ) (data : Bytes)
  deriving DecidableEq

/-- A number in network byte order. -/
def ntohl (b : Bytes) : ℕ := b.foldl (fun n x => 256 * n + x.toNat) 0

/-- The loop of `net_recv_exact`, of at most so many rounds. -/
def recvRounds : ℕ → ℕ → ReceiveM UInt8 Bytes
  | _, 0 => return []
  | 0, _ => throw ()
  | rounds + 1, remaining => do
    let part ← recv remaining
    if part.isEmpty then throw ()
    return part ++ (← recvRounds rounds (remaining - part.length))

/-- Receive exactly so many bytes: each round of the loop receives at least one. -/
def netRecvExact (len : ℕ) : ReceiveM UInt8 Bytes := recvRounds len len

/-- Receive bytes that nobody needs; an error is ignored. -/
def skip (len : ℕ) : ReceiveM UInt8 Unit :=
  tryCatch (do let _ ← netRecvExact len) fun _ => return

/-- The message after its id, by the type of the message. -/
def recvPayload (msgId : ℤ) (msgLen : ℕ) : ReceiveM UInt8 RecvEvent := do
  if msgId ≤ PEER_MSG_NOT_INTERESTED then
    return .message msgId 0 0 []
  else if msgId = PEER_MSG_HAVE then
    let netIdx ← netRecvExact 4
    return .message msgId (ntohl netIdx) 0 []
  else if msgId = PEER_MSG_BITFIELD then
    let payloadLen := msgLen - 1
    if payloadLen > PAYLOAD_LIMIT then throw ()
    let data ← netRecvExact payloadLen
    return .message msgId 0 0 data
  else if msgId = PEER_MSG_PIECE then
    if msgLen < 9 then throw ()
    let netIdx ← netRecvExact 4
    let netBegin ← netRecvExact 4
    let data ← netRecvExact (msgLen - 9)
    return .message msgId (ntohl netIdx) (ntohl netBegin) data
  else
    -- `PEER_MSG_CANCEL` and the unknown types
    if msgLen > 1 then skip (msgLen - 1)
    return .message msgId 0 0 []

/-- The checks of the length of a message, by its type, before it is read. -/
def recvTyped (msgId : ℤ) (msgLen : ℕ) : ReceiveM UInt8 RecvEvent :=
  if msgId ≤ PEER_MSG_NOT_INTERESTED ∧ msgLen ≠ 1 then throw ()
  else if msgId = PEER_MSG_HAVE ∧ msgLen ≠ 5 then throw ()
  else if (msgId = PEER_MSG_REQUEST ∨ msgId = PEER_MSG_CANCEL) ∧ msgLen ≠ 13 then throw ()
  else recvPayload msgId msgLen

/-- A message of this length, from its id on. -/
def recvBody (msgLen : ℕ) : ReceiveM UInt8 RecvEvent :=
  if msgLen > PAYLOAD_LIMIT + 9 then throw ()
  else if msgLen = 0 then return .message PEER_MSG_KEEPALIVE 0 0 []
  else do recvTyped (ntohl (← netRecvExact 1)) msgLen

/-- `peer_recv_event` from the point where it reads the length of the message. -/
def recvMessage : ReceiveM UInt8 RecvEvent := do recvBody (ntohl (← netRecvExact 4))

/-- The header of the next frame, as far as it has arrived, is looked at, and
    the frame is read once it has arrived. -/
def recvHeader (header : Bytes) : ReceiveM UInt8 RecvEvent :=
  if header.isEmpty then throw ()
  else if header.length < 4 then return .incomplete
  else if ntohl header > PAYLOAD_LIMIT + 9 then throw ()
  else do if (← available) < ntohl header + 4 then return .incomplete else recvMessage

/-- `peer_recv_event` returns -1 where this fails. -/
def peerRecvMessage : ReceiveM UInt8 RecvEvent := do
  match ← peek 4 with
  | none => return .incomplete
  | some header => recvHeader header

def peerRecvEvent (r : Receiver UInt8) : RecvEvent × Receiver UInt8 :=
  match peerRecvMessage r with
  | .ok event r => (event, r)
  | .error _ r => (.error, r)

/-- So many calls of `peer_recv_event`, up to the first that fails: the events
    they return, without those that find no complete frame. -/
def recvEvents : ℕ → Receiver UInt8 → List RecvEvent × Receiver UInt8
  | 0, r => ([], r)
  | n + 1, r =>
    match peerRecvEvent r with
    | (.incomplete, r) => recvEvents n r
    | (.error, r) => ([.error], r)
    | (event, r) => (event :: (recvEvents n r).1, (recvEvents n r).2)

end PS5Torrent
