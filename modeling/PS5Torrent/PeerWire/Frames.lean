import PS5Torrent.PeerWire

/-!
# Framing

What `peer_recv_event` is for: the messages of a peer are framed by their
length, and `decodeFrames` decodes a whole stream frame by frame. However the
stream arrives, repeated calls give the same events
(`recvEvents_of_arrival`): a call waits until a whole frame has arrived
(`peerRecvEvent_cases`), and then reads exactly that frame, field by field
(`recvMessage_eq`).
-/

namespace PS5Torrent

open Receiver Effect

/-! ## The frames of a stream -/

/-- The length in the header of the first frame of a stream. -/
def frameLength (stream : Bytes) : ℕ := ntohl (stream.take 4)

/-- The first frame, without its header. -/
def frameBody (stream : Bytes) : Bytes := (stream.drop 4).take (frameLength stream)

/-- The stream starts with a complete frame. -/
def HasFrame (stream : Bytes) : Prop := 4 + frameLength stream ≤ stream.length

/-- The length in the header is above the limit. -/
def Oversized (stream : Bytes) : Prop :=
  4 ≤ stream.length ∧ frameLength stream > PAYLOAD_LIMIT + 9

/-- The length of a message is wrong for its type. -/
def WrongLength (msgId : ℤ) (msgLen : ℕ) : Prop :=
  msgId ≤ PEER_MSG_NOT_INTERESTED ∧ msgLen ≠ 1 ∨
  msgId = PEER_MSG_HAVE ∧ msgLen ≠ 5 ∨
  (msgId = PEER_MSG_REQUEST ∨ msgId = PEER_MSG_CANCEL) ∧ msgLen ≠ 13 ∨
  msgId = PEER_MSG_PIECE ∧ msgLen < 9 ∨
  msgId = PEER_MSG_BITFIELD ∧ msgLen - 1 > PAYLOAD_LIMIT

instance (stream : Bytes) : Decidable (HasFrame stream) := by unfold HasFrame; infer_instance

instance (stream : Bytes) : Decidable (Oversized stream) := by unfold Oversized; infer_instance

instance (msgId : ℤ) (msgLen : ℕ) : Decidable (WrongLength msgId msgLen) := by
  unfold WrongLength; infer_instance

/-- The message of a type with a payload. -/
def messageOf (msgId : ℤ) (payload : Bytes) : RecvEvent :=
  if msgId = PEER_MSG_HAVE then .message msgId (ntohl payload) 0 []
  else if msgId = PEER_MSG_BITFIELD then .message msgId 0 0 payload
  else if msgId = PEER_MSG_PIECE then
    .message msgId (ntohl (payload.take 4)) (ntohl ((payload.drop 4).take 4)) (payload.drop 8)
  else .message msgId 0 0 []

/-- The message in a frame. -/
def decodeMessage : Bytes → RecvEvent
  | [] => .message PEER_MSG_KEEPALIVE 0 0 []
  | id :: payload =>
    if WrongLength id.toNat (payload.length + 1) then .error else messageOf id.toNat payload

/-- The events of a stream, up to the first invalid frame. -/
def decodeFrames (stream : Bytes) : List RecvEvent :=
  if Oversized stream then [.error]
  else if HasFrame stream then
    match decodeMessage (frameBody stream) with
    | .error => [.error]
    | event => event :: decodeFrames (stream.drop (4 + frameLength stream))
  else []
termination_by stream.length
decreasing_by
  rename_i h
  have : 4 + frameLength stream ≤ stream.length := h
  rw [List.length_drop]
  omega

/-- The header of the first frame is invalid, or the frame is. -/
def Invalid (stream : Bytes) : Prop :=
  Oversized stream ∨
    HasFrame stream ∧ ∃ id payload, frameBody stream = id :: payload ∧
      WrongLength id.toNat (payload.length + 1)

/-! ## The fields of a frame -/

/-- A round that receives something leaves the rest to the rounds after it. -/
theorem recvRounds_succ (rounds remaining : ℕ) {r : Receiver UInt8} (hr : r.unread ≠ []) :
    ∃ n r', 0 < n ∧ n ≤ remaining + 1 ∧ n ≤ r.unread.length ∧ After r n r' ∧
      recvRounds (rounds + 1) (remaining + 1) r =
        (recvRounds rounds (remaining + 1 - n) >>= fun rest =>
          pure (r.unread.take n ++ rest)) r' := by
  obtain ⟨n, r', hpos, hn, hunread, hrecv, hafter⟩ := recv_of_unread (Nat.succ_pos remaining) hr
  have htake : (r.unread.take n).length = n := List.length_take_of_le hunread
  have hpart : (r.unread.take n).isEmpty = false := by
    rw [List.isEmpty_eq_false_iff, ← List.length_pos_iff, htake]
    exact hpos
  refine ⟨n, r', hpos, hn, hunread, hafter, ?_⟩
  rw [recvRounds, bind_of_ok hrecv, hpart, if_neg Bool.false_ne_true, htake]
  exact Nat.succ_ne_zero remaining

/-- Rounds that may wait receive what they are to, if so much is left of the stream. -/
theorem recvRounds_of_unread {rounds len : ℕ} {r : Receiver UInt8} (hle : len ≤ rounds)
    (hlen : len ≤ r.unread.length) :
    ∃ r', recvRounds rounds len r = .ok (r.unread.take len) r' ∧ After r len r' := by
  induction rounds generalizing len r with
  | zero =>
    obtain rfl := Nat.le_zero.1 hle
    exact ⟨r, rfl, After.refl r⟩
  | succ rounds ih =>
    rcases len with _ | remaining
    · exact ⟨r, rfl, After.refl r⟩
    · have hne : r.unread ≠ [] := List.ne_nil_of_length_pos (by omega)
      obtain ⟨n, r₁, hpos, hn, -, hafter, hround⟩ := recvRounds_succ rounds remaining hne
      have hleft : r₁.unread.length = r.unread.length - n := by
        rw [hafter.unread, List.length_drop]
      obtain ⟨r₂, hrest, hafter₂⟩ := ih (show remaining + 1 - n ≤ rounds by omega)
        (show remaining + 1 - n ≤ r₁.unread.length by omega)
      have htotal : n + (remaining + 1 - n) = remaining + 1 := by omega
      refine ⟨r₂, ?_, htotal ▸ hafter.trans hafter₂⟩
      rw [hround, bind_of_ok hrest, hafter.unread, ← List.take_add, htotal]
      rfl

theorem netRecvExact_eq {len : ℕ} {r : Receiver UInt8} (h : len ≤ r.buffered.length) :
    ∃ r', netRecvExact len r = .ok (r.unread.take len) r' ∧ After r len r' :=
  recvRounds_of_unread (le_refl len) (h.trans (by rw [unread, List.length_append]; omega))

theorem skip_eq {len : ℕ} {r : Receiver UInt8} (h : len ≤ r.buffered.length) :
    ∃ r', skip len r = .ok () r' ∧ After r len r' := by
  obtain ⟨r', hr, hafter⟩ := netRecvExact_eq h
  exact ⟨r', tryCatch_of_ok ((bind_of_ok hr).trans rfl), hafter⟩

/-! ## The messages -/

/-- The call returns the event and takes so many bytes. -/
def Takes (n : ℕ) (r : Receiver UInt8) (event : RecvEvent)
    (x : EStateM.Result Unit (Receiver UInt8) RecvEvent) :
    Prop := ∃ r', x = .ok event r' ∧ After r n r'

theorem takes_return (event : RecvEvent) (r : Receiver UInt8) :
    Takes 0 r event ((return event : ReceiveM UInt8 RecvEvent) r) := ⟨r, rfl, After.refl r⟩

/-- A field that has arrived is received, and the rest of the computation goes
    on with it. -/
theorem takes_netRecvExact {m n : ℕ} {r : Receiver UInt8} {event : RecvEvent}
    {f : Bytes → ReceiveM UInt8 RecvEvent} (h : m ≤ r.buffered.length)
    (hf : ∀ r', After r m r' → Takes n r' event (f (r.unread.take m) r')) :
    Takes (m + n) r event ((netRecvExact m >>= f) r) := by
  obtain ⟨r', hr, hafter⟩ := netRecvExact_eq h
  obtain ⟨r'', hr', hafter'⟩ := hf r' hafter
  refine ⟨r'', ?_, hafter.trans hafter'⟩
  rw [bind_of_ok hr, hr']

theorem takes_skip {m n : ℕ} {r : Receiver UInt8} {event : RecvEvent}
    {f : Unit → ReceiveM UInt8 RecvEvent} (h : m ≤ r.buffered.length)
    (hf : ∀ r', After r m r' → Takes n r' event (f () r')) :
    Takes (m + n) r event ((skip m >>= f) r) := by
  obtain ⟨r', hr, hafter⟩ := skip_eq h
  obtain ⟨r'', hr', hafter'⟩ := hf r' hafter
  refine ⟨r'', ?_, hafter.trans hafter'⟩
  rw [bind_of_ok hr, hr']

/-- The payload of a message of a right length is read to its end. -/
theorem takes_recvPayload {msgId : ℤ} {payload : Bytes} {r : Receiver UInt8}
    (hbuf : payload.length ≤ r.buffered.length) (hpayload : r.unread.take payload.length = payload)
    (hlen : ¬ WrongLength msgId (payload.length + 1)) :
    Takes payload.length r (messageOf msgId payload) (recvPayload msgId (payload.length + 1) r) := by
  simp only [WrongLength, not_or, not_and, not_lt, not_not, gt_iff_lt, Nat.add_sub_cancel] at hlen
  obtain ⟨hfixed, hhave, hrequest, hpiece, hbitfield⟩ := hlen
  rw [recvPayload, Nat.add_sub_cancel]
  by_cases h₁ : msgId ≤ PEER_MSG_NOT_INTERESTED
  · have hne {type : ℤ} (h : PEER_MSG_NOT_INTERESTED < type) : msgId ≠ type := (h₁.trans_lt h).ne
    rw [messageOf, if_neg (hne (by decide)), if_neg (hne (by decide)), if_neg (hne (by decide))]
    rw [if_pos h₁, Nat.add_right_cancel (hfixed h₁ : payload.length + 1 = 0 + 1)]
    exact takes_return _ r
  rw [if_neg h₁]
  by_cases h₂ : msgId = PEER_MSG_HAVE
  · rw [if_pos h₂, messageOf, if_pos h₂, Nat.add_right_cancel (hhave h₂ : payload.length + 1 = 4 + 1)]
    rw [Nat.add_right_cancel (hhave h₂ : payload.length + 1 = 4 + 1)] at hbuf hpayload
    refine takes_netRecvExact (n := 0) hbuf fun r' _ => ?_
    rw [hpayload]
    exact takes_return _ r'
  rw [if_neg h₂]
  by_cases h₃ : msgId = PEER_MSG_BITFIELD
  · rw [if_pos h₃, messageOf, if_neg h₂, if_pos h₃, if_neg (hbitfield h₃).not_gt]
    refine takes_netRecvExact (n := 0) hbuf fun r' _ => ?_
    rw [hpayload]
    exact takes_return _ r'
  rw [if_neg h₃]
  by_cases h₄ : msgId = PEER_MSG_PIECE
  · have hlen := hpiece h₄
    obtain ⟨len, hsize⟩ : ∃ len, payload.length = 4 + (4 + (len + 0)) :=
      ⟨payload.length - 8, by omega⟩
    rw [if_pos h₄, messageOf, if_neg h₂, if_neg h₃, if_pos h₄, if_neg hlen.not_gt, hsize]
    refine takes_netRecvExact (by omega) fun r₁ hr₁ => ?_
    have hbuf₁ := hr₁.buffered
    refine takes_netRecvExact (by omega) fun r₂ hr₂ => ?_
    have hbuf₂ := hr₂.buffered
    rw [show 4 + (4 + (len + 0)) + 1 - 9 = len by omega]
    refine takes_netRecvExact (by omega) fun r₃ _ => ?_
    -- the three fields are consecutive parts of the payload
    rw [hr₂.unread, hr₁.unread, ← hpayload, hsize, List.drop_take, List.drop_take, List.take_take,
      List.take_take, List.drop_drop]
    rw [show min 4 (4 + (4 + (len + 0))) = 4 by omega,
      show min 4 (4 + (4 + (len + 0)) - 4) = 4 by omega, show 4 + (4 + (len + 0)) - 8 = len by omega]
    exact takes_return _ r₃
  rw [if_neg h₄, messageOf, if_neg h₂, if_neg h₃, if_neg h₄]
  rcases hempty : payload.length with _ | len
  · exact takes_return _ r
  · rw [if_pos (by omega)]
    refine takes_skip (n := 0) (hempty ▸ hbuf) fun r' _ => ?_
    exact takes_return _ r'

/-- The check of the length, before the message or while it is read, lets
    exactly the right lengths through. -/
theorem recvTyped_of_wrongLength {msgId : ℤ} {msgLen : ℕ} (h : WrongLength msgId msgLen)
    (r : Receiver UInt8) : recvTyped msgId msgLen r = .error () r := by
  rw [recvTyped]
  split_ifs with h₁ h₂ h₃
  · rfl
  · rfl
  · rfl
  · rcases h with h | h | h | ⟨rfl, hlen⟩ | ⟨rfl, hlen⟩
    · exact absurd h h₁
    · exact absurd h h₂
    · exact absurd h h₃
    · rw [recvPayload, if_neg (by decide), if_neg (by decide), if_neg (by decide), if_pos rfl,
        if_pos hlen]
      rfl
    · rw [recvPayload, if_neg (by decide), if_neg (by decide), if_pos rfl, if_pos hlen]
      rfl

theorem recvTyped_of_not_wrongLength {msgId : ℤ} {msgLen : ℕ} (h : ¬ WrongLength msgId msgLen) :
    recvTyped msgId msgLen = recvPayload msgId msgLen := by
  rw [recvTyped, if_neg fun h₁ => h (Or.inl h₁), if_neg fun h₂ => h (Or.inr (Or.inl h₂)),
    if_neg fun h₃ => h (Or.inr (Or.inr (Or.inl h₃)))]

theorem messageOf_ne_error (msgId : ℤ) (payload : Bytes) : messageOf msgId payload ≠ .error := by
  rw [messageOf]
  split_ifs <;> exact RecvEvent.noConfusion

theorem length_frameBody {stream : Bytes} (h : HasFrame stream) :
    (frameBody stream).length = frameLength stream := by
  rw [HasFrame] at h
  rw [frameBody, List.length_take, List.length_drop]
  omega

/-- A frame that has arrived is read to its end, unless it is invalid. -/
theorem recvMessage_cases {r : Receiver UInt8}
    (hframe : 4 + frameLength r.unread ≤ r.buffered.length)
    (hsize : frameLength r.unread ≤ PAYLOAD_LIMIT + 9) :
    decodeMessage (frameBody r.unread) = .error ∧
        (∃ n r', recvMessage r = .error () r' ∧ After r n r') ∨
      decodeMessage (frameBody r.unread) ≠ .error ∧
      Takes (4 + frameLength r.unread) r (decodeMessage (frameBody r.unread)) (recvMessage r) := by
  have hlength : (frameBody r.unread).length = frameLength r.unread := by
    refine length_frameBody (hframe.trans ?_)
    rw [unread, List.length_append]
    exact Nat.le_add_right _ _
  obtain ⟨r₁, hr₁, hafter₁⟩ := netRecvExact_eq (show 4 ≤ r.buffered.length by omega)
  have hbuf₁ := hafter₁.buffered
  have hbody : r₁.unread.take (frameLength r.unread) = frameBody r.unread := by
    rw [hafter₁.unread, frameBody]
  have hrecv : recvMessage r = recvBody (frameLength r.unread) r₁ := bind_of_ok hr₁
  rw [hrecv, recvBody, if_neg hsize.not_gt]
  rcases hcases : frameBody r.unread with _ | ⟨id, payload⟩
  · rw [hcases, List.length_nil] at hlength
    rw [← hlength]
    exact Or.inr ⟨RecvEvent.noConfusion, r₁, rfl, hafter₁⟩
  rw [hcases, List.length_cons] at hlength
  rw [hcases, ← hlength] at hbody
  obtain ⟨r₂, hr₂, hafter₂⟩ := netRecvExact_eq (show 1 ≤ r₁.buffered.length by omega)
  have hbuf₂ := hafter₂.buffered
  have hid : ntohl (r₁.unread.take 1) = id.toNat := by
    have := congrArg (List.take 1) hbody
    rw [List.take_take, Nat.min_eq_left (by omega)] at this
    rw [this]
    simp [ntohl]
  have hpayload : r₂.unread.take payload.length = payload := by
    have := congrArg (List.drop 1) hbody
    rwa [List.drop_take, ← hafter₂.unread] at this
  rw [← hlength, if_neg (Nat.succ_ne_zero _), bind_of_ok hr₂, hid, decodeMessage]
  by_cases hwrong : WrongLength id.toNat (payload.length + 1)
  · rw [if_pos hwrong]
    exact Or.inl ⟨rfl, _, r₂, recvTyped_of_wrongLength hwrong r₂, hafter₁.trans hafter₂⟩
  · rw [if_neg hwrong, recvTyped_of_not_wrongLength hwrong]
    obtain ⟨r₃, hr₃, hafter₃⟩ := takes_recvPayload (r := r₂) (by omega) hpayload hwrong
    refine Or.inr ⟨messageOf_ne_error _ _, r₃, hr₃, ?_⟩
    have := hafter₁.trans (hafter₂.trans hafter₃)
    rwa [Nat.add_comm 1] at this

/-! ## One call -/

theorem frameLength_take {stream : Bytes} {k : ℕ} (h : 4 ≤ k) :
    frameLength (stream.take k) = frameLength stream := by
  rw [frameLength, List.take_take, Nat.min_eq_left h, frameLength]

theorem hasFrame_take {stream : Bytes} {k : ℕ} :
    HasFrame (stream.take k) ↔ HasFrame stream ∧ 4 + frameLength stream ≤ k := by
  rw [HasFrame, HasFrame, List.length_take, le_inf_iff, and_comm]
  rcases Nat.lt_or_ge k 4 with hk | hk
  · constructor <;> rintro ⟨_, _⟩ <;> omega
  · rw [frameLength_take hk]

theorem oversized_take {stream : Bytes} {k : ℕ} (hk : 4 ≤ k) :
    Oversized (stream.take k) ↔ Oversized stream := by
  rw [Oversized, Oversized, List.length_take, frameLength_take hk, le_inf_iff, and_iff_right hk]

/-- What a call does, whatever has arrived and arrives during it. -/
structure Call (r : Receiver UInt8) (event : RecvEvent) (r' : Receiver UInt8) : Prop where
  /-- A message is that of the first frame, whose bytes are consumed, and its
      payload fits the buffer. -/
  message : ∀ type index begin data, event = .message type index begin data →
    HasFrame r.unread ∧ decodeMessage (frameBody r.unread) = event ∧
      r'.unread = r.unread.drop (4 + frameLength r.unread) ∧ data.length ≤ PAYLOAD_LIMIT
  /-- A call that finds no complete frame consumes nothing. -/
  incomplete : event = .incomplete → ¬ HasFrame r.buffered ∧ r'.unread = r.unread
  /-- A call waits while no complete frame has arrived. -/
  waits : ¬ HasFrame (r.arrivedBy r') → ¬ Oversized (r.arrivedBy r') → r.atEnd = false →
    event = .incomplete
  /-- A call fails only at an invalid frame or at the end of the stream. -/
  error : event = .error → Invalid r.unread ∨ r.atEnd = true

/-- The outcome of a call that looked at what had arrived in `r₁`: the event
    and the number of bytes consumed. -/
inductive CallOutcome (r r₁ : Receiver UInt8) : RecvEvent → ℕ → Prop
  | waiting (hframe : ¬ HasFrame r₁.buffered) (hsize : ¬ Oversized r₁.buffered) :
      CallOutcome r r₁ .incomplete 0
  | ended (h : r.atEnd = true) : CallOutcome r r₁ .error 0
  | oversized (h : Oversized r₁.buffered) : CallOutcome r r₁ .error 0
  | invalid (n : ℕ) (hframe : HasFrame r₁.buffered) (hsize : ¬ Oversized r.unread)
      (h : decodeMessage (frameBody r.unread) = .error) : CallOutcome r r₁ .error n
  | message (hframe : HasFrame r₁.buffered) (hsize : ¬ Oversized r.unread)
      (h : decodeMessage (frameBody r.unread) ≠ .error) :
      CallOutcome r r₁ (decodeMessage (frameBody r.unread)) (4 + frameLength r.unread)

theorem peerRecvEvent_cases (r : Receiver UInt8) : ∃ r₁ n, After r 0 r₁ ∧
    After r₁ n (peerRecvEvent r).2 ∧ CallOutcome r r₁ (peerRecvEvent r).1 n := by
  obtain ⟨r₁, hafter₁, ⟨hempty, hend, hpeek⟩ | ⟨hne, hpeek⟩ | ⟨hend, hpeek⟩⟩ :=
    peek_eq 4 r
  · have hcall : peerRecvEvent r = (.incomplete, r₁) := by
      rw [peerRecvEvent, peerRecvMessage, bind_of_ok hpeek]
      rfl
    rw [hcall]
    refine ⟨r₁, 0, hafter₁, After.refl r₁, CallOutcome.waiting ?_ ?_⟩ <;> rw [hempty] <;> decide
  · -- something has arrived: the header, or a part of it
    have hcall : peerRecvMessage r = recvHeader (r₁.buffered.take 4) r₁ := by
      rw [peerRecvMessage, bind_of_ok hpeek]
    rw [peerRecvEvent, hcall, recvHeader, if_neg (by simpa using hne)]
    split_ifs with hlen hsize
    · rw [List.length_take] at hlen
      refine ⟨r₁, 0, hafter₁, After.refl r₁, CallOutcome.waiting (fun h => ?_) fun h => ?_⟩
      · have : 4 + frameLength r₁.buffered ≤ r₁.buffered.length := h
        omega
      · have := h.1
        omega
    · refine ⟨r₁, 0, hafter₁, After.refl r₁, CallOutcome.oversized ⟨?_, hsize⟩⟩
      rw [List.length_take] at hlen
      omega
    · rw [List.length_take] at hlen
      have hheader : ntohl (r₁.buffered.take 4) = frameLength r.unread := by
        rw [take_buffered (by omega), hafter₁.unread, List.drop_zero, frameLength]
      rw [hheader] at hsize
      obtain ⟨r₂, havailable, hafter₂⟩ := available_eq r₁
      have hafter : After r 0 r₂ := hafter₁.trans hafter₂
      have hunread : r₂.unread = r.unread := hafter.unread
      have hlen₂ : frameLength r₂.buffered = frameLength r.unread := by
        have := hafter₂.buffered
        rw [← hunread, ← take_length_buffered r₂, frameLength_take (by omega)]
      rw [bind_of_ok havailable, hheader]
      split_ifs with hfew
      · refine ⟨r₂, 0, hafter, After.refl r₂, CallOutcome.waiting ?_ fun h => ?_⟩
        · rw [HasFrame, hlen₂]
          omega
        · exact hsize (hlen₂ ▸ h.2)
      have hframe : 4 + frameLength r.unread ≤ r₂.buffered.length := by omega
      have hframe₂ : HasFrame r₂.buffered := by
        rw [HasFrame, hlen₂]
        exact hframe
      rw [← hunread] at hframe hsize
      rcases recvMessage_cases hframe (not_lt.1 hsize) with
        ⟨herror, n, r₃, hr₃, hafter₃⟩ | ⟨hmessage, r₃, hr₃, hafter₃⟩
      · rw [hr₃]
        rw [hunread] at herror hsize
        exact ⟨r₂, n, hafter, hafter₃, CallOutcome.invalid n hframe₂ (fun h => hsize h.2) herror⟩
      · rw [hr₃]
        rw [hunread] at hmessage hsize hafter₃ ⊢
        exact ⟨r₂, _, hafter, hafter₃, CallOutcome.message hframe₂ (fun h => hsize h.2) hmessage⟩
  · have hcall : peerRecvEvent r = (.error, r₁) := by
      rw [peerRecvEvent, peerRecvMessage, bind_of_ok hpeek]
      rfl
    rw [hcall]
    exact ⟨r₁, 0, hafter₁, After.refl r₁, CallOutcome.ended hend⟩

theorem length_data_le {body : Bytes} {type : ℤ} {index begin : ℕ} {data : Bytes}
    (h : decodeMessage body = .message type index begin data)
    (hbody : body.length ≤ PAYLOAD_LIMIT + 9) : data.length ≤ PAYLOAD_LIMIT := by
  rcases body with _ | ⟨id, payload⟩
  · injection h with _ _ _ hdata
    rw [← hdata]
    exact Nat.zero_le _
  rw [decodeMessage] at h
  split_ifs at h with hwrong
  rw [messageOf] at h
  split_ifs at h with _ hbit <;> injection h with _ _ _ hdata <;> rw [← hdata]
  · exact Nat.zero_le _
  · exact not_lt.1 fun hlt => hwrong (Or.inr (Or.inr (Or.inr (Or.inr ⟨hbit, hlt⟩))))
  · rw [List.length_cons] at hbody
    rw [List.length_drop]
    omega
  · exact Nat.zero_le _

theorem wrongLength_of_error {body : Bytes} (h : decodeMessage body = .error) :
    ∃ id payload, body = id :: payload ∧ WrongLength (id : UInt8).toNat (payload.length + 1) := by
  rcases body with _ | ⟨id, payload⟩
  · exact nomatch h
  refine ⟨id, payload, rfl, ?_⟩
  by_contra hwrong
  rw [decodeMessage, if_neg hwrong] at h
  exact messageOf_ne_error _ _ h

theorem decodeMessage_ne_incomplete (body : Bytes) : decodeMessage body ≠ .incomplete := by
  rcases body with _ | ⟨id, payload⟩
  · exact RecvEvent.noConfusion
  rw [decodeMessage, messageOf]
  split_ifs <;> exact RecvEvent.noConfusion

/-- **One call.** -/
theorem peerRecvEvent_call (r : Receiver UInt8) :
    Call r (peerRecvEvent r).1 (peerRecvEvent r).2 := by
  obtain ⟨r₁, n, hafter₁, hafter, houtcome⟩ := peerRecvEvent_cases r
  have hunread := hafter₁.unread_zero
  have hbuf := hafter₁.buffered_eq
  have hbuf' : HasFrame r.buffered → HasFrame r₁.buffered := by
    have hle := hafter₁.buffered
    rw [hbuf, ← take_length_buffered r, hasFrame_take, hasFrame_take]
    exact fun ⟨hframe, hlen⟩ => ⟨hframe, hlen.trans hle⟩
  have harrived := hafter₁.le_arrivedBy hafter
  generalize (peerRecvEvent r).1 = event at houtcome ⊢
  generalize (peerRecvEvent r).2 = r' at hafter harrived ⊢
  rcases houtcome with ⟨hwait, -⟩ | hend | hover | ⟨n, hframe, hsize, herror⟩ |
    ⟨hframe, hsize, hmessage⟩
  · exact ⟨fun _ _ _ _ h => (nomatch h),
      fun _ => ⟨fun h => hwait (hbuf' h), hafter.unread.trans hunread⟩,
      fun _ _ _ => rfl, fun h => (nomatch h)⟩
  · exact ⟨fun _ _ _ _ h => (nomatch h), fun h => (nomatch h),
      fun _ _ h => absurd (hend.symm.trans h) Bool.noConfusion, fun _ => Or.inr hend⟩
  · have hover' := hover
    rw [hbuf, oversized_take hover.1] at hover'
    refine ⟨fun _ _ _ _ h => (nomatch h), fun h => (nomatch h), fun _ h _ => absurd ?_ h,
      fun _ => Or.inl (Or.inl hover')⟩
    exact (oversized_take (hover.1.trans harrived)).2 hover'
  all_goals
    have hframe' := hframe
    rw [hbuf, hasFrame_take] at hframe'
    have hdone : HasFrame (r.arrivedBy r') := hasFrame_take.2 ⟨hframe'.1, hframe'.2.trans harrived⟩
  · exact ⟨fun _ _ _ _ h => (nomatch h), fun h => (nomatch h), fun h _ _ => absurd hdone h,
      fun _ => Or.inl (Or.inr ⟨hframe'.1, wrongLength_of_error herror⟩)⟩
  · refine ⟨fun _ _ _ _ h => ⟨hframe'.1, rfl, ?_, length_data_le h ?_⟩,
      fun h => absurd h (decodeMessage_ne_incomplete _), fun h _ _ => absurd hdone h,
      fun h => absurd h hmessage⟩
    · rw [hafter.unread, hunread]
    · rw [length_frameBody hframe'.1]
      exact not_lt.1 fun h => hsize ⟨le_of_add_le_left hframe'.1, h⟩

/-! ## Repeated calls -/

theorem decodeFrames_of_oversized {stream : Bytes} (h : Oversized stream) :
    decodeFrames stream = [.error] := by
  rw [decodeFrames, if_pos h]

theorem decodeFrames_of_error {stream : Bytes} (hsize : ¬ Oversized stream) (hframe : HasFrame stream)
    (h : decodeMessage (frameBody stream) = .error) : decodeFrames stream = [.error] := by
  rw [decodeFrames, if_neg hsize, if_pos hframe, h]

theorem decodeFrames_of_message {stream : Bytes} (hsize : ¬ Oversized stream)
    (hframe : HasFrame stream) (h : decodeMessage (frameBody stream) ≠ .error) :
    decodeFrames stream = decodeMessage (frameBody stream) ::
      decodeFrames (stream.drop (4 + frameLength stream)) := by
  rw [decodeFrames, if_neg hsize, if_pos hframe]
  split
  · exact absurd ‹_› h
  · rfl

theorem decodeFrames_of_waiting {stream : Bytes} (hsize : ¬ Oversized stream)
    (hframe : ¬ HasFrame stream) : decodeFrames stream = [] := by
  rw [decodeFrames, if_neg hsize, if_neg hframe]

/-- The events of some calls, up to the first that fails, and what they leave. -/
structure Calls (r : Receiver UInt8) (events : List RecvEvent) (r' : Receiver UInt8) : Prop where
  /-- The events are the first of the stream, and the others are still to come. -/
  decoded : .error ∉ events → events ++ decodeFrames r'.unread = decodeFrames r.unread
  /-- After a failure they are all events of the stream. -/
  failed : .error ∈ events → events = decodeFrames r.unread ∨
    r.ended = true ∧ events = decodeFrames r.unread ++ [.error]
  incomplete : .incomplete ∉ events
  ended : r'.ended = r.ended

theorem decodeFrames_nil : decodeFrames [] = [] := decodeFrames_of_waiting (by decide) (by decide)

theorem atEnd_iff {r : Receiver UInt8} : r.atEnd = true ↔ r.ended = true ∧ r.unread = [] := by
  rw [atEnd, Bool.and_eq_true, List.isEmpty_iff]

theorem recvEvents_succ_message {n : ℕ} {r : Receiver UInt8} {event : RecvEvent}
    (h : (peerRecvEvent r).1 = event) (hincomplete : event ≠ .incomplete) (herror : event ≠ .error) :
    recvEvents (n + 1) r =
      (event :: (recvEvents n (peerRecvEvent r).2).1, (recvEvents n (peerRecvEvent r).2).2) := by
  obtain ⟨event', r', hcall⟩ : ∃ event' r', peerRecvEvent r = (event', r') := ⟨_, _, rfl⟩
  rw [hcall] at h
  subst h
  rw [recvEvents, hcall]
  rcases event' with _ | _ | ⟨type, index, begin, data⟩
  · exact absurd rfl hincomplete
  · exact absurd rfl herror
  · rfl

theorem recvEvents_succ_incomplete {n : ℕ} {r : Receiver UInt8}
    (h : (peerRecvEvent r).1 = .incomplete) :
    recvEvents (n + 1) r = recvEvents n (peerRecvEvent r).2 := by
  obtain ⟨event', r', hcall⟩ : ∃ event' r', peerRecvEvent r = (event', r') := ⟨_, _, rfl⟩
  rw [hcall] at h
  subst h
  rw [recvEvents, hcall]

theorem recvEvents_succ_error {n : ℕ} {r : Receiver UInt8} (h : (peerRecvEvent r).1 = .error) :
    recvEvents (n + 1) r = ([.error], (peerRecvEvent r).2) := by
  obtain ⟨event', r', hcall⟩ : ∃ event' r', peerRecvEvent r = (event', r') := ⟨_, _, rfl⟩
  rw [hcall] at h
  subst h
  rw [recvEvents, hcall]

/-- A call that fails leaves the events of the stream decoded. -/
theorem calls_of_error {r : Receiver UInt8} {r' : Receiver UInt8} (hended : r'.ended = r.ended)
    (h : decodeFrames r.unread = [.error] ∨ r.atEnd = true) : Calls r [.error] r' := by
  refine ⟨fun h => absurd (List.mem_singleton_self _) h, fun _ => ?_, by simp, hended⟩
  rcases h with h | h
  · exact Or.inl h.symm
  · obtain ⟨hend, hnil⟩ := atEnd_iff.1 h
    exact Or.inr ⟨hend, by rw [hnil, decodeFrames_nil, List.nil_append]⟩

/-- The calls after one that returned a message. -/
theorem Calls.cons {r r₁ r' : Receiver UInt8} {event : RecvEvent} {events : List RecvEvent}
    (h : Calls r₁ events r') (hended : r₁.ended = r.ended) (herror : event ≠ .error)
    (hincomplete : event ≠ .incomplete)
    (hdecode : decodeFrames r.unread = event :: decodeFrames r₁.unread) :
    Calls r (event :: events) r' := by
  refine ⟨fun hmem => ?_, fun hmem => ?_, ?_, h.ended.trans hended⟩
  · rw [List.cons_append, h.decoded fun h => hmem (List.mem_cons_of_mem _ h), hdecode]
  · rcases List.mem_cons.1 hmem with heq | hmem
    · exact absurd heq.symm herror
    · rw [hdecode, ← hended]
      rcases h.failed hmem with heq | ⟨hend, heq⟩
      · exact Or.inl (by rw [heq])
      · exact Or.inr ⟨hend, by rw [heq, List.cons_append]⟩
  · rw [List.mem_cons, not_or]
    exact ⟨hincomplete.symm, h.incomplete⟩

theorem Calls.of_eq {r r₁ r' : Receiver UInt8} {events : List RecvEvent} (h : Calls r₁ events r')
    (hended : r₁.ended = r.ended) (hunread : r₁.unread = r.unread) : Calls r events r' := by
  refine ⟨?_, ?_, h.incomplete, h.ended.trans hended⟩
  · rw [← hunread]
    exact h.decoded
  · rw [← hunread, ← hended]
    exact h.failed

/-- What an outcome says about the events of the stream. -/
theorem CallOutcome.decodeFrames_eq {r r₁ : Receiver UInt8} {event : RecvEvent} {k : ℕ}
    (houtcome : CallOutcome r r₁ event k) (hafter : After r 0 r₁) :
    event = .incomplete ∧ k = 0 ∧ (r.coming = [] → decodeFrames r.unread = []) ∨
      event = .error ∧ (decodeFrames r.unread = [.error] ∨ r.atEnd = true) ∨
      event ≠ .incomplete ∧ event ≠ .error ∧ 4 ≤ k ∧ k ≤ r.unread.length ∧
        decodeFrames r.unread = event :: decodeFrames (r.unread.drop k) := by
  have hbuf := hafter.buffered_eq
  rcases houtcome with ⟨hframe, hsize⟩ | hend | hover | ⟨n, hframe, hsize, herror⟩ |
    ⟨hframe, hsize, hmessage⟩
  · refine Or.inl ⟨rfl, rfl, fun hcoming => ?_⟩
    have hcoming₁ := hafter.coming_eq_nil (Nat.zero_le _) hcoming
    rw [← hafter.unread_zero, unread, hcoming₁, List.append_nil]
    exact decodeFrames_of_waiting hsize hframe
  · exact Or.inr (Or.inl ⟨rfl, Or.inr hend⟩)
  · have hover' := hover
    rw [hbuf, oversized_take hover.1] at hover'
    exact Or.inr (Or.inl ⟨rfl, Or.inl (decodeFrames_of_oversized hover')⟩)
  · rw [hbuf, hasFrame_take] at hframe
    exact Or.inr (Or.inl ⟨rfl, Or.inl (decodeFrames_of_error hsize hframe.1 herror)⟩)
  · rw [hbuf, hasFrame_take] at hframe
    exact Or.inr (Or.inr ⟨decodeMessage_ne_incomplete _, hmessage, Nat.le_add_right _ _, hframe.1,
      decodeFrames_of_message hsize hframe.1 hmessage⟩)

theorem recvEvents_calls (n : ℕ) (r : Receiver UInt8) :
    Calls r (recvEvents n r).1 (recvEvents n r).2 := by
  induction n generalizing r with
  | zero => exact ⟨fun _ => rfl, fun h => (nomatch h), fun h => (nomatch h), rfl⟩
  | succ n ih =>
    obtain ⟨r₁, k, hafter₁, hafter, houtcome⟩ := peerRecvEvent_cases r
    have hended : (peerRecvEvent r).2.ended = r.ended := hafter.ended.trans hafter₁.ended
    have hunread : (peerRecvEvent r).2.unread = r.unread.drop k :=
      hafter.unread.trans (by rw [hafter₁.unread_zero])
    rcases houtcome.decodeFrames_eq hafter₁ with ⟨hevent, rfl, -⟩ | ⟨hevent, herror⟩ |
      ⟨hincomplete, herror, -, -, hdecode⟩
    · rw [recvEvents_succ_incomplete hevent]
      exact (ih _).of_eq hended hunread
    · rw [recvEvents_succ_error hevent]
      exact calls_of_error hended herror
    · rw [recvEvents_succ_message rfl hincomplete herror]
      exact (ih _).cons hended herror hincomplete (by rw [hdecode, hunread])

/-- Where no event is left, no call returns one. -/
theorem Calls.of_nil {r r' : Receiver UInt8} {events : List RecvEvent} (h : Calls r events r')
    (hnil : decodeFrames r.unread = []) : events = [] ∨ r.ended = true ∧ events = [.error] := by
  by_cases herror : .error ∈ events
  · rcases h.failed herror with heq | ⟨hended, heq⟩
    · exact Or.inl (heq.trans hnil)
    · exact Or.inr ⟨hended, by rw [heq, hnil, List.nil_append]⟩
  · have := h.decoded herror
    rw [hnil] at this
    exact Or.inl (List.append_eq_nil_iff.1 this).1

/-- Once the whole stream has arrived, more calls than it has bytes return all
    its events. -/
theorem recvEvents_of_arrived {n : ℕ} {r : Receiver UInt8} (hcoming : r.coming = [])
    (hn : r.unread.length < n) : (recvEvents n r).1 = decodeFrames r.unread ∨
      r.ended = true ∧ (recvEvents n r).1 = decodeFrames r.unread ++ [.error] := by
  induction n generalizing r with
  | zero => exact absurd hn (Nat.not_lt_zero _)
  | succ n ih =>
    obtain ⟨r₁, k, hafter₁, hafter, houtcome⟩ := peerRecvEvent_cases r
    have hcoming₁ := hafter₁.coming_eq_nil (Nat.zero_le _) hcoming
    have hended : (peerRecvEvent r).2.ended = r.ended := hafter.ended.trans hafter₁.ended
    have hunread : (peerRecvEvent r).2.unread = r.unread.drop k :=
      hafter.unread.trans (by rw [hafter₁.unread_zero])
    rcases houtcome.decodeFrames_eq hafter₁ with ⟨-, -, hnil⟩ | ⟨hevent, herror⟩ |
      ⟨hincomplete, herror, hpos, hk, hdecode⟩
    · rw [hnil hcoming, List.nil_append]
      exact (recvEvents_calls (n + 1) r).of_nil (hnil hcoming)
    · rw [recvEvents_succ_error hevent]
      exact (calls_of_error hended herror).failed (List.mem_singleton_self _)
    · rw [recvEvents_succ_message rfl hincomplete herror, hdecode, ← hunread, ← hended]
      have hcoming' : (peerRecvEvent r).2.coming = [] := by
        refine hafter.coming_eq_nil ?_ hcoming₁
        have := congrArg List.length hafter₁.unread_zero
        rw [unread, hcoming₁, List.append_nil] at this
        omega
      have hless : (peerRecvEvent r).2.unread.length < n := by
        rw [hunread, List.length_drop]
        omega
      rcases ih hcoming' hless with h | ⟨hend, h⟩
      · exact Or.inl (by rw [h])
      · exact Or.inr ⟨hend, by rw [h, List.cons_append]⟩

/-- **Repeated calls return the events of the stream.** However the stream
    arrives: each call does what `Call` says, the events of the calls so far are
    the first of the stream, and once everything has arrived more calls return
    the others. -/
theorem recvEvents_of_arrival (m n : ℕ) (r : Receiver UInt8) :
    Call r (peerRecvEvent r).1 (peerRecvEvent r).2 ∧
    Calls r (recvEvents m r).1 (recvEvents m r).2 ∧
    (.error ∉ (recvEvents m r).1 → (recvEvents m r).2.coming = [] →
      (recvEvents m r).2.unread.length < n →
      (recvEvents m r).1 ++ (recvEvents n (recvEvents m r).2).1 = decodeFrames r.unread ∨
      r.ended = true ∧
        (recvEvents m r).1 ++ (recvEvents n (recvEvents m r).2).1 =
          decodeFrames r.unread ++ [.error]) := by
  have hcalls := recvEvents_calls m r
  refine ⟨peerRecvEvent_call r, hcalls, fun herror hcoming hn => ?_⟩
  rw [← hcalls.decoded herror, ← hcalls.ended, List.append_assoc]
  rcases recvEvents_of_arrived hcoming hn with h | ⟨hended, h⟩
  · exact Or.inl (by rw [h])
  · exact Or.inr ⟨hended, by rw [h]⟩

end PS5Torrent
