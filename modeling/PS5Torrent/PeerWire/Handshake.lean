import PS5Torrent.Library.Sender
import PS5Torrent.PeerWire.Frames

/-!
# The handshake

`peer_handshake` of `peer_wire.c`: a client sends its handshake, and reads that
of its peer in three parts, so that it turns a peer of another protocol away as
soon as the first bytes of its stream show it.

However the bytes arrive, the handshake succeeds exactly if the stream of the
peer begins with a handshake for the same torrent, of which nothing is left and
beyond which nothing is taken (`recvHandshake_eq`). Two clients that meet
agree: both connect, and know each other, or neither does
(`handshakes_agree`).
-/

namespace PS5Torrent

open Receiver Sender Effect

/-- `peer_handshake_t` -/
structure PeerHandshake where
  pstrlen : UInt8
  pstr : Bytes
  reserved : Bytes
  infoHash : Bytes
  peerId : Bytes

def PeerHandshake.bytes (hs : PeerHandshake) : Bytes :=
  hs.pstrlen :: (hs.pstr ++ (hs.reserved ++ (hs.infoHash ++ hs.peerId)))

def peerHandshakeInit (infoHash peerId : Bytes) : PeerHandshake where
  pstrlen := 19
  pstr := lit "BitTorrent protocol"
  reserved := List.replicate 8 0
  infoHash := infoHash
  peerId := peerId

/-- Receive the last part of a handshake, with the peer id if it is for the torrent. -/
def recvTorrent (infoHash : Bytes) : ReceiveM UInt8 Bytes := do
  let fields ← netRecvExact 48
  if (fields.drop 8).take 20 ≠ infoHash then throw () else return fields.drop 28

/-- Receive bytes that must be these before something else is received. -/
def expect (expected : Bytes) (len : ℕ) (next : ReceiveM UInt8 Bytes) : ReceiveM UInt8 Bytes := do
  let received ← netRecvExact len
  if received ≠ expected then throw () else next

/-- The part of `peer_handshake` that receives, with the peer id of the peer. -/
def recvHandshake (infoHash : Bytes) : ReceiveM UInt8 Bytes :=
  expect [19] 1 (expect (lit "BitTorrent protocol") 19 (recvTorrent infoHash))

/-- `peer_handshake`; it returns -1 where the peer id is `none`. -/
def peerHandshake (infoHash peerId : Bytes) (s : Sender UInt8) (r : Receiver UInt8) :
    Option Bytes × Sender UInt8 × Receiver UInt8 :=
  match sendAll (peerHandshakeInit infoHash peerId).bytes s with
  | (false, s) => (none, s, r)
  | (true, s) =>
    match recvHandshake infoHash r with
    | .ok remoteId r => (some remoteId, s, r)
    | .error _ r => (none, s, r)

/-! ## What a handshake is -/

/-- The first bytes of every handshake. -/
def protocolPrefix : Bytes := 19 :: lit "BitTorrent protocol"

/-- The peer id in a handshake for a torrent at the start of a stream. -/
def readHandshake (infoHash stream : Bytes) : Option Bytes :=
  if protocolPrefix <+: stream ∧ 68 ≤ stream.length ∧ (stream.drop 28).take 20 = infoHash then
    some ((stream.drop 48).take 20)
  else none

variable {infoHash infoHash' peerId peerId' later expected : Bytes} {len : ℕ} {s : Sender UInt8}
  {r : Receiver UInt8}

theorem protocolPrefix_iff {stream : Bytes} : protocolPrefix <+: stream ↔
    [19] <+: stream ∧ lit "BitTorrent protocol" <+: stream.drop 1 := by
  cases stream with
  | nil => exact iff_of_false (by decide) fun h => absurd h.1 (by decide)
  | cons b stream =>
    rw [protocolPrefix, List.cons_prefix_cons, List.cons_prefix_cons, List.drop_one, List.tail_cons]
    exact ⟨fun h => ⟨⟨h.1, List.nil_prefix⟩, h.2⟩, fun h => ⟨h.1.1, h.2⟩⟩

/-- A client reads the handshake of another one if it is for the same torrent. -/
theorem readHandshake_bytes (hhash : infoHash'.length = 20) (hid : peerId'.length = 20)
    (infoHash later : Bytes) :
    readHandshake infoHash ((peerHandshakeInit infoHash' peerId').bytes ++ later) =
      if infoHash' = infoHash then some peerId' else none := by
  obtain ⟨stream, hstream⟩ : ∃ stream,
      stream = (peerHandshakeInit infoHash' peerId').bytes ++ later := ⟨_, rfl⟩
  have hparts : stream = (protocolPrefix ++ List.replicate 8 0) ++
      (infoHash' ++ (peerId' ++ later)) := by
    rw [hstream, PeerHandshake.bytes, peerHandshakeInit, protocolPrefix]
    simp only [List.cons_append, List.append_assoc]
  have hhead : (protocolPrefix ++ List.replicate 8 0).length = 28 := rfl
  have hstart : protocolPrefix <+: stream := by
    rw [hparts, List.append_assoc]
    exact List.prefix_append _ _
  have hlength : 68 ≤ stream.length := by
    rw [hparts, List.length_append, hhead, List.length_append, List.length_append, hhash, hid]
    omega
  have hread : (stream.drop 28).take 20 = infoHash' := by
    rw [hparts, List.drop_left' hhead, List.take_left' hhash]
  have hreadId : (stream.drop 48).take 20 = peerId' := by
    have hdrop : stream.drop 48 = (stream.drop 28).drop 20 := by rw [List.drop_drop]
    rw [hdrop, hparts, List.drop_left' hhead, List.drop_left' hhash, List.take_left' hid]
  rw [← hstream, readHandshake, hread, hreadId]
  simp only [hstart, hlength, true_and]

/-! ## Receiving the parts -/

/-- Where less is left, the rounds fail with the end of the stream. -/
theorem recvRounds_of_lt {rounds len : ℕ} {r : Receiver UInt8} (hle : len ≤ rounds)
    (hlt : r.unread.length < len) :
    ∃ r', recvRounds rounds len r = .error () r' ∧ After r r.unread.length r' := by
  induction rounds generalizing len r with
  | zero => omega
  | succ rounds ih =>
    obtain ⟨remaining, rfl⟩ : ∃ remaining, len = remaining + 1 := ⟨len - 1, by omega⟩
    by_cases hr : r.unread = []
    · obtain ⟨r₁, hafter, h⟩ : ∃ r₁, After r 0 r₁ ∧ (recv (remaining + 1) r = .ok [] r₁ ∨
          recv (remaining + 1) r = .error () r₁) := recv_of_unread_eq_nil hr
      refine ⟨r₁, ?_, by rw [hr]; exact hafter⟩
      rw [recvRounds]
      · rcases h with h | h
        · rw [bind_of_ok h]
          rfl
        · exact bind_of_error h
      · exact Nat.succ_ne_zero remaining
    · obtain ⟨n, r₁, hpos, hn, hunread, hafter, hround⟩ := recvRounds_succ rounds remaining hr
      have hleft : r₁.unread.length = r.unread.length - n := by
        rw [hafter.unread, List.length_drop]
      obtain ⟨r₂, hrest, hafter₂⟩ := ih (show remaining + 1 - n ≤ rounds by omega)
        (show r₁.unread.length < remaining + 1 - n by omega)
      have htotal : n + r₁.unread.length = r.unread.length := by omega
      refine ⟨r₂, ?_, htotal ▸ hafter.trans hafter₂⟩
      rw [hround]
      exact bind_of_error hrest

/-- What is expected is received, and the rest goes on after it. -/
theorem expect_of_prefix (next : ReceiveM UInt8 Bytes) (hlen : expected.length = len)
    (h : expected <+: r.unread) :
    ∃ r', expect expected len next r = next r' ∧ After r len r' := by
  have hle : len ≤ r.unread.length := hlen ▸ h.length_le
  have htake : r.unread.take len = expected := by rw [← hlen, ← List.prefix_iff_eq_take.1 h]
  obtain ⟨r', hrecv, hafter⟩ := recvRounds_of_unread (le_refl len) hle
  refine ⟨r', ?_, hafter⟩
  rw [expect, netRecvExact, bind_of_ok hrecv, htake, if_neg (not_not.2 rfl)]

/-- Something else is an error, after that many bytes at most. -/
theorem expect_of_not_prefix (len : ℕ) (next : ReceiveM UInt8 Bytes)
    (h : ¬expected <+: r.unread) :
    ∃ n r', expect expected len next r = .error () r' ∧ After r n r' ∧ n ≤ len := by
  rcases le_or_gt len r.unread.length with hle | hlt
  · obtain ⟨r', hrecv, hafter⟩ := recvRounds_of_unread (le_refl len) hle
    have hne : r.unread.take len ≠ expected := fun heq => h (heq ▸ List.take_prefix _ _)
    refine ⟨len, r', ?_, hafter, le_rfl⟩
    rw [expect, netRecvExact, bind_of_ok hrecv, if_pos hne]
    rfl
  · obtain ⟨r', hrecv, hafter⟩ := recvRounds_of_lt (le_refl len) hlt
    exact ⟨_, r', bind_of_error hrecv, hafter, hlt.le⟩

theorem recvTorrent_eq (infoHash : Bytes) (r : Receiver UInt8) : ∃ n r', After r n r' ∧ n ≤ 48 ∧
    if 48 ≤ r.unread.length ∧ (r.unread.drop 8).take 20 = infoHash then
      recvTorrent infoHash r = .ok ((r.unread.drop 28).take 20) r' ∧ n = 48
    else recvTorrent infoHash r = .error () r' := by
  rcases le_or_gt 48 r.unread.length with hle | hlt
  · obtain ⟨r', hrecv, hafter⟩ := recvRounds_of_unread (le_refl 48) hle
    have hhash : ((r.unread.take 48).drop 8).take 20 = (r.unread.drop 8).take 20 := by
      rw [List.drop_take, List.take_take]
      rfl
    refine ⟨48, r', hafter, le_rfl, ?_⟩
    rw [recvTorrent, netRecvExact, bind_of_ok hrecv, hhash, List.drop_take]
    by_cases heq : (r.unread.drop 8).take 20 = infoHash
    · rw [if_pos ⟨hle, heq⟩, if_neg (not_not.2 heq)]
      exact ⟨rfl, rfl⟩
    · rw [if_neg fun h => heq h.2, if_pos heq]
      rfl
  · obtain ⟨r', hrecv, hafter⟩ := recvRounds_of_lt (le_refl 48) hlt
    refine ⟨_, r', hafter, hlt.le, ?_⟩
    rw [if_neg fun h => absurd h.1 (not_le.2 hlt)]
    exact bind_of_error hrecv

/-! ## The handshake -/

/-- The handshake that a stream begins with is received, and no more; a stream that begins in
    another way is turned away, as soon as that shows. -/
theorem recvHandshake_eq (infoHash : Bytes) (r : Receiver UInt8) : ∃ n r', After r n r' ∧ n ≤ 68 ∧
    recvHandshake infoHash r =
      (readHandshake infoHash r.unread).elim (.error () r') (fun remoteId => .ok remoteId r') ∧
    ((readHandshake infoHash r.unread).isSome → n = 68) ∧
    (¬[19] <+: r.unread → n ≤ 1) ∧ (¬protocolPrefix <+: r.unread → n ≤ 20) := by
  have hnone (h : ¬protocolPrefix <+: r.unread) : readHandshake infoHash r.unread = none :=
    if_neg fun h' => h h'.1
  by_cases hfirst : [19] <+: r.unread
  · obtain ⟨r₁, heq₁, hafter₁⟩ := expect_of_prefix
      (expect (lit "BitTorrent protocol") 19 (recvTorrent infoHash))
      (show [(19 : UInt8)].length = 1 from rfl) hfirst
    by_cases hsecond : lit "BitTorrent protocol" <+: r₁.unread
    · obtain ⟨r₂, heq₂, hafter₂⟩ := expect_of_prefix (recvTorrent infoHash)
        (show (lit "BitTorrent protocol").length = 19 from rfl) hsecond
      obtain ⟨n, r₃, hafter₃, hn, h⟩ := recvTorrent_eq infoHash r₂
      have hafter := (hafter₁.trans hafter₂).trans hafter₃
      have hstart : protocolPrefix <+: r.unread :=
        protocolPrefix_iff.2 ⟨hfirst, hafter₁.unread ▸ hsecond⟩
      have hunread : r₂.unread = r.unread.drop 20 := (hafter₁.trans hafter₂).unread
      have hcond : (48 ≤ r₂.unread.length ∧ (r₂.unread.drop 8).take 20 = infoHash) ↔
          protocolPrefix <+: r.unread ∧ 68 ≤ r.unread.length ∧
            (r.unread.drop 28).take 20 = infoHash := by
        rw [hunread, List.length_drop, List.drop_drop]
        constructor
        · rintro ⟨hlen, hhash⟩
          exact ⟨hstart, by omega, hhash⟩
        · rintro ⟨-, hlen, hhash⟩
          exact ⟨by omega, hhash⟩
      refine ⟨_, r₃, hafter, by omega, ?_, ?_, fun h' => absurd hfirst h',
        fun h' => absurd hstart h'⟩
      · rw [recvHandshake, heq₁, heq₂, readHandshake]
        split at h
        case isTrue hgood =>
          rw [if_pos (hcond.1 hgood), h.1, hunread, List.drop_drop]
          rfl
        case isFalse hbad =>
          rw [if_neg fun h' => hbad (hcond.2 h'), h]
          rfl
      · intro hsome
        split at h
        case isTrue => rw [h.2]
        case isFalse hbad =>
          rw [readHandshake, if_neg fun h' => hbad (hcond.2 h')] at hsome
          cases hsome
    · have hnot : ¬protocolPrefix <+: r.unread := fun h =>
        hsecond (hafter₁.unread ▸ (protocolPrefix_iff.1 h).2)
      obtain ⟨n, r₂, heq₂, hafter₂, hn⟩ := expect_of_not_prefix 19 (recvTorrent infoHash) hsecond
      rw [recvHandshake, heq₁, heq₂, hnone hnot]
      exact ⟨_, r₂, hafter₁.trans hafter₂, by omega, rfl, fun h => absurd h Bool.false_ne_true,
        fun h => absurd hfirst h, fun _ => by omega⟩
  · have hnot : ¬protocolPrefix <+: r.unread := fun h => hfirst (protocolPrefix_iff.1 h).1
    obtain ⟨n, r₁, heq₁, hafter₁, hn⟩ := expect_of_not_prefix 1
      (expect (lit "BitTorrent protocol") 19 (recvTorrent infoHash)) hfirst
    rw [recvHandshake, heq₁, hnone hnot]
    exact ⟨_, r₁, hafter₁, by omega, rfl, fun h => absurd h Bool.false_ne_true, fun _ => hn,
      fun _ => by omega⟩

/-- What `peer_handshake` returns, sends and takes. -/
theorem peerHandshake_eq (infoHash peerId : Bytes) (s : Sender UInt8) (r : Receiver UInt8) :
    ∃ n ≤ 68, After r n (peerHandshake infoHash peerId s r).2.2 ∧
      (peerHandshake infoHash peerId s r).1 =
        (if (sendAll (peerHandshakeInit infoHash peerId).bytes s).1 then
          readHandshake infoHash r.unread else none) ∧
      (peerHandshake infoHash peerId s r).2.1 =
        (sendAll (peerHandshakeInit infoHash peerId).bytes s).2 ∧
      ((peerHandshake infoHash peerId s r).1.isSome → n = 68) ∧
      (¬[19] <+: r.unread → n ≤ 1) ∧ (¬protocolPrefix <+: r.unread → n ≤ 20) := by
  rw [peerHandshake]
  obtain ⟨ok, s', hsend⟩ : ∃ ok s', sendAll (peerHandshakeInit infoHash peerId).bytes s = (ok, s') :=
    ⟨_, _, rfl⟩
  rw [hsend]
  cases ok with
  | false =>
    exact ⟨0, Nat.zero_le _, After.refl r, rfl, rfl, fun h => absurd h Bool.false_ne_true,
      fun _ => Nat.zero_le _, fun _ => Nat.zero_le _⟩
  | true =>
    obtain ⟨n, r', hafter, hn, heq, hall, hfirst, hprotocol⟩ := recvHandshake_eq infoHash r
    cases hread : readHandshake infoHash r.unread with
    | none =>
      rw [hread] at heq
      dsimp only
      rw [heq]
      exact ⟨n, hn, hafter, rfl, rfl, fun h => absurd h Bool.false_ne_true, hfirst, hprotocol⟩
    | some remoteId =>
      rw [hread] at heq hall
      dsimp only
      rw [heq]
      exact ⟨n, hn, hafter, rfl, rfl, hall, hfirst, hprotocol⟩

/-- A handshake is rejected by what the peer sends, or goes through and takes the handshake of the
    peer and nothing else. A peer of another protocol is not waited for: no more of its bytes is
    received than show that it is one. -/
theorem peerHandshake_spec (infoHash peerId : Bytes) (s : Sender UInt8) (r : Receiver UInt8) :
    ((peerHandshake infoHash peerId s r).1 =
      if (sendAll (peerHandshakeInit infoHash peerId).bytes s).1 then
        readHandshake infoHash r.unread else none) ∧
    ((peerHandshake infoHash peerId s r).1.isSome →
      (peerHandshake infoHash peerId s r).2.2.unread = r.unread.drop 68) ∧
    ∃ n ≤ 68, (peerHandshake infoHash peerId s r).2.2.unread = r.unread.drop n ∧
      (¬[19] <+: r.unread → n ≤ 1) ∧ (¬protocolPrefix <+: r.unread → n ≤ 20) := by
  obtain ⟨n, hn, hafter, hresult, -, hall, hfirst, hprotocol⟩ :=
    peerHandshake_eq infoHash peerId s r
  exact ⟨hresult, fun hsome => hall hsome ▸ hafter.unread, n, hn, hafter.unread, hfirst, hprotocol⟩

theorem sent_peerHandshake (hs : s.Takes) (infoHash peerId : Bytes) (r : Receiver UInt8) :
    (sendAll (peerHandshakeInit infoHash peerId).bytes s).1 = true ∧
      (peerHandshake infoHash peerId s r).2.1.sent =
        s.sent ++ (peerHandshakeInit infoHash peerId).bytes := by
  obtain ⟨-, -, -, -, hsender, -⟩ := peerHandshake_eq infoHash peerId s r
  obtain ⟨n, -, hsent, hok, htakes⟩ := sendAll_eq (peerHandshakeInit infoHash peerId).bytes s
  have hn := htakes hs
  rw [hsender, hsent, hn, List.take_length]
  exact ⟨hok.2 hn, rfl⟩

/-- A client that meets another one. -/
theorem peerHandshake_of_peer (hhash : infoHash'.length = 20) (hid : peerId'.length = 20)
    (hs : s.Takes) (hr : r.unread = (peerHandshakeInit infoHash' peerId').bytes ++ later) :
    ((peerHandshake infoHash peerId s r).1 = if infoHash' = infoHash then some peerId' else none) ∧
      ((peerHandshake infoHash peerId s r).1.isSome →
        (peerHandshake infoHash peerId s r).2.2.unread = later) := by
  obtain ⟨n, -, hafter, hresult, -, hall, -⟩ := peerHandshake_eq infoHash peerId s r
  have hlength : (peerHandshakeInit infoHash' peerId').bytes.length = 68 := by
    have hname : (lit "BitTorrent protocol").length = 19 := rfl
    rw [PeerHandshake.bytes, peerHandshakeInit, List.length_cons, List.length_append,
      List.length_append, List.length_append, hhash, hid, hname, List.length_replicate]
  refine ⟨?_, fun hsome => ?_⟩
  · rw [hresult, if_pos (sent_peerHandshake hs infoHash peerId r).1, hr,
      readHandshake_bytes hhash hid]
  · rw [hafter.unread, hall hsome, hr, List.drop_left' hlength]

/-- Two clients that are connected to each other: however their bytes arrive, both get the peer id
    of the other one and go on with what the other one sends next, if they are there for the same
    torrent, and both fail if they are not. -/
theorem handshakes_agree {hashA hashB idA idB laterA laterB : Bytes} {sA sB : Sender UInt8}
    {rA rB : Receiver UInt8} (hhashA : hashA.length = 20) (hhashB : hashB.length = 20)
    (hidA : idA.length = 20) (hidB : idB.length = 20) (hsA : sA.Takes) (hsB : sB.Takes)
    (hA : sA.sent = []) (hB : sB.sent = [])
    (hrA : rA.unread = (peerHandshake hashB idB sB rB).2.1.sent ++ laterB)
    (hrB : rB.unread = (peerHandshake hashA idA sA rA).2.1.sent ++ laterA) :
    if hashA = hashB then
      ((peerHandshake hashA idA sA rA).1 = some idB ∧
        (peerHandshake hashA idA sA rA).2.2.unread = laterB) ∧
      (peerHandshake hashB idB sB rB).1 = some idA ∧
        (peerHandshake hashB idB sB rB).2.2.unread = laterA
    else (peerHandshake hashA idA sA rA).1 = none ∧ (peerHandshake hashB idB sB rB).1 = none := by
  rw [(sent_peerHandshake hsB hashB idB rB).2, hB, List.nil_append] at hrA
  rw [(sent_peerHandshake hsA hashA idA rA).2, hA, List.nil_append] at hrB
  obtain ⟨hresultA, hleftA⟩ := peerHandshake_of_peer hhashB hidB hsA hrA
  obtain ⟨hresultB, hleftB⟩ := peerHandshake_of_peer hhashA hidA hsB hrB
  split
  case isTrue heq =>
    rw [if_pos heq.symm] at hresultA
    rw [if_pos heq] at hresultB
    exact ⟨⟨hresultA, hleftA (by rw [hresultA]; rfl)⟩, hresultB, hleftB (by rw [hresultB]; rfl)⟩
  case isFalse hne =>
    rw [if_neg (Ne.symm hne)] at hresultA
    rw [if_neg hne] at hresultB
    exact ⟨hresultA, hresultB⟩

/-! ### Two clients -/

/-- A connection that brings five bytes at a time. -/
def byFives (stream : Bytes) : Receiver UInt8 where
  buffered := []
  coming := stream
  ended := false
  arrivals _ := 5
  chunks _ := 3
  calls := 0

def peerSender : Sender UInt8 := ⟨[], fun _ => some 9, 0⟩

def seederId : Bytes := List.replicate 20 1

def leecherId : Bytes := List.replicate 20 2

def sharedHash : Bytes := List.replicate 20 3

def atSeeder : Receiver UInt8 := byFives (peerHandshakeInit sharedHash leecherId).bytes

def atLeecher : Receiver UInt8 := byFives ((peerHandshakeInit sharedHash seederId).bytes ++ lit "x")

theorem handshakes_agree_shared :
    if sharedHash = sharedHash then
      ((peerHandshake sharedHash seederId peerSender atSeeder).1 = some leecherId ∧
        (peerHandshake sharedHash seederId peerSender atSeeder).2.2.unread = []) ∧
      (peerHandshake sharedHash leecherId peerSender atLeecher).1 = some seederId ∧
        (peerHandshake sharedHash leecherId peerSender atLeecher).2.2.unread = lit "x"
    else (peerHandshake sharedHash seederId peerSender atSeeder).1 = none ∧
      (peerHandshake sharedHash leecherId peerSender atLeecher).1 = none := by
  have hseeder : atSeeder.unread =
      (peerHandshake sharedHash leecherId peerSender atLeecher).2.1.sent ++ [] := by
    decide +kernel
  have hleecher : atLeecher.unread =
      (peerHandshake sharedHash seederId peerSender atSeeder).2.1.sent ++ lit "x" := by
    decide +kernel
  exact handshakes_agree (by decide) (by decide) (by decide) (by decide) (fun _ => ⟨8, rfl⟩)
    (fun _ => ⟨8, rfl⟩) rfl rfl hseeder hleecher

end PS5Torrent
