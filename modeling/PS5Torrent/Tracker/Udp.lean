import PS5Torrent.AppLog
import PS5Torrent.Library.Datagrams
import PS5Torrent.PeerWire
import PS5Torrent.Tracker

/-!
# UDP trackers

The exchanges of `tracker_udp.c` with a tracker: a request is sent, and the
first reply to it is awaited; once more if there is none. Other datagrams are
ignored, and both exchanges of an announce share the buffer of the replies.
-/

namespace PS5Torrent

open Datagrams

def put32 (v : ℕ) : Bytes := [24, 16, 8, 0].map fun s => UInt8.ofNat (v >>> s)

def get32 (p : Bytes) : ℕ := ntohl (p.take 4)

def put64 (v : ℕ) : Bytes := put32 (v >>> 32) ++ put32 v

/-- What an attempt of an exchange ends with: `break`, `return -1` or `return n`. -/
inductive UdpReply
  | timedOut
  | failed
  | accepted (n : ℕ)

/-- The buffer of the replies is `unsigned char response[65536]`. -/
def RESPONSE_SIZE : ℕ := 65536

/-- What to do with a datagram of `n` bytes in the buffer, or to wait for the next one. -/
def judge (request : Bytes) (action n : ℕ) (response : Bytes) : Option UdpReply :=
  if n < 8 ∨ get32 (response.drop 4) ≠ get32 (request.drop 12) then none
  else if get32 response = 3 then some .failed
  else if get32 response ≠ action then none
  else if n < (if action = 0 then 16 else 20) then some .failed
  else some (.accepted n)

/-- The loop of `exchange` that waits for a reply. -/
def awaitReply (request : Bytes) (action deadline : ℕ) (response : Bytes) (s : Socket UInt8) :
    UdpReply × Bytes × Socket UInt8 :=
  match _ : poll RESPONSE_SIZE deadline s with
  | (.timeout, s') => (.timedOut, response, s')
  | (.failed, s') => (.failed, response, s')
  | (.interrupted, s') => awaitReply request action deadline response s'
  | (.datagram datagram, s') =>
    let response := memcpyAt response 0 datagram
    match judge request action datagram.length response with
    | none => awaitReply request action deadline response s'
    | some reply => (reply, response, s')
termination_by s.pending
decreasing_by
  · have hspec := poll_spec RESPONSE_SIZE deadline s
    rw [‹poll RESPONSE_SIZE deadline s = _›] at hspec
    cases hspec with
    | nothing _ _ _ _ _ _ hpending => exact hpending rfl
  · have hspec := poll_spec RESPONSE_SIZE deadline s
    rw [‹poll RESPONSE_SIZE deadline s = _›] at hspec
    cases hspec with
    | datagram _ _ _ _ hpending => exact hpending
    | nothing hnot => exact absurd rfl (hnot datagram)

/-- The attempts of `exchange`, with the shifts of their time. -/
def attempts (request : Bytes) (action : ℕ) :
    List ℕ → Bytes → Socket UInt8 → Option ℕ × Bytes × Socket UInt8
  | [], response, s => (none, response, s)
  | attempt :: rest, response, s =>
    match s.send request with
    | (some _, s) => (none, response, s)
    | (none, s) =>
      let s := s.clock
      match awaitReply request action (s.now + 15000 <<< attempt) response s with
      | (.timedOut, response, s) => attempts request action rest response s
      | (.failed, response, s) => (none, response, s)
      | (.accepted n, response, s) => (some n, response, s)

/-- The request of a connection identifier, at the start of the buffer of the requests. -/
def connectRequest (transaction : ℕ) : Bytes :=
  let request := List.replicate 98 0
  let request := memcpyAt request 0 (put64 0x41727101980)
  memcpyAt request 12 (put32 transaction)

/-- What `tracker_announce_udp` returns. -/
structure UdpResponse where
  interval : ℕ
  incomplete : ℕ
  complete : ℕ
  peers : List PeerAddr

/-- The numbers that `arc4random` returns: the transactions and the key. -/
structure Randoms where
  connect : ℕ
  announce : ℕ
  key : ℕ

end PS5Torrent
