import PS5Torrent.Tracker.Udp

/-!
# Exchanges with UDP trackers

A datagram is *relevant* to a request if it has its transaction and its action
or that of an error. An exchange ignores all datagrams before the first
relevant one, which decides it (`Exchanged.decided`); each of its attempts
sends the request once and takes only what arrives by its deadline
(`IsAttempt`). Without a relevant datagram it does not give up before the
deadlines of both attempts (`Exchanged.gaveUp`). An announce consists of two exchanges, the second for the
connection identifier of the first reply (`Announced`).
-/

namespace PS5Torrent

open Datagrams

/-! ## Replies -/

/-- A datagram that is not ignored. -/
def Relevant (request : Bytes) (action : ℕ) (datagram : Bytes) : Prop :=
  8 ≤ datagram.length ∧ get32 (datagram.drop 4) = get32 (request.drop 12) ∧
    (get32 datagram = 3 ∨ get32 datagram = action)

/-- The reply that was asked for. -/
structure IsReply (request : Bytes) (action : ℕ) (datagram : Bytes) : Prop where
  relevant : Relevant request action datagram
  not_error : get32 datagram ≠ 3
  action_eq : get32 datagram = action
  length : (if action = 0 then 16 else 20) ≤ datagram.length

variable {request response response' datagram : Bytes} {action n wait : ℕ} {s s' : Socket UInt8}

/-- What the datagrams taken decide: the first relevant one is the last one that is taken. -/
inductive Decided (request : Bytes) (action : ℕ) : List Bytes → Option ℕ → Bytes → Prop
  | undecided {datagrams : List Bytes} {response : Bytes}
      (hignored : ∀ d ∈ datagrams, ¬Relevant request action d) :
      Decided request action datagrams none response
  | accepted {ignored : List Bytes} {datagram response : Bytes}
      (hignored : ∀ d ∈ ignored, ¬Relevant request action d)
      (hreply : IsReply request action datagram)
      (hresponse : response.take datagram.length = datagram) :
      Decided request action (ignored ++ [datagram]) (some datagram.length) response
  | rejected {ignored : List Bytes} {datagram response : Bytes}
      (hignored : ∀ d ∈ ignored, ¬Relevant request action d)
      (hrelevant : Relevant request action datagram)
      (hreply : ¬IsReply request action datagram) :
      Decided request action (ignored ++ [datagram]) none response

/-- Ignored datagrams decide nothing. -/
theorem Decided.append {datagrams : List Bytes} {result : Option ℕ} {ignored : List Bytes}
    (h : Decided request action datagrams result response)
    (hignored : ∀ d ∈ ignored, ¬Relevant request action d) :
    Decided request action (ignored ++ datagrams) result response := by
  cases h with
  | undecided h =>
    refine .undecided fun d hd => ?_
    rcases List.mem_append.1 hd with hd | hd
    · exact hignored d hd
    · exact h d hd
  | accepted h hreply hresponse =>
    rw [← List.append_assoc]
    refine .accepted (fun d hd => ?_) hreply hresponse
    rcases List.mem_append.1 hd with hd | hd
    · exact hignored d hd
    · exact h d hd
  | rejected h hrelevant hreply =>
    rw [← List.append_assoc]
    refine .rejected (fun d hd => ?_) hrelevant hreply
    rcases List.mem_append.1 hd with hd | hd
    · exact hignored d hd
    · exact h d hd

/-- The length of the reply, if there is one. -/
def UdpReply.result : UdpReply → Option ℕ
  | .accepted n => some n
  | _ => none

variable {deadline time start : ℕ} {s₁ : Socket UInt8} {rest : List (Incident UInt8)}
  {reply : UdpReply}

/-- The events of an attempt: the request is sent, the clock is read, and what is taken after that
    has arrived within the given time. -/
def IsAttempt (request : Bytes) (wait : ℕ) (attempt : List (Incident UInt8)) : Prop :=
  ∃ (sent start : ℕ) (rest : List (Incident UInt8)),
    attempt = .sent sent request :: .read start :: rest ∧ ∀ event ∈ rest, event.By (start + wait)

/-- The deadline of an attempt has passed. -/
def Expired (request : Bytes) (wait now : ℕ) (attempt : List (Incident UInt8)) : Prop :=
  ∃ (sent start : ℕ) (rest : List (Incident UInt8)),
    attempt = .sent sent request :: .read start :: rest ∧ start + wait ≤ now

/-- The attempts of an exchange, each with the shift of its time. The next one is made after the
    deadline of the one before. -/
structure Attempted (request : Bytes) (shifts : List ℕ) (s : Socket UInt8)
    (attempts : List (List (Incident UInt8))) (s' : Socket UInt8) : Prop where
  events : s'.events = s.events ++ attempts.flatten
  unread : s.unread RESPONSE_SIZE = takenOf attempts.flatten ++ s'.unread RESPONSE_SIZE
  length_le : attempts.length ≤ shifts.length
  isAttempt : ∀ (i : ℕ) attempt shift, attempts[i]? = some attempt → shifts[i]? = some shift →
    IsAttempt request (15000 <<< shift) attempt
  passed : s.Passed s'
  first : ∀ attempt ∈ attempts.head?, ∃ rest, attempt = .sent s.now request :: rest
  resent : ∀ (i : ℕ) attempt shift next, attempts[i]? = some attempt → shifts[i]? = some shift →
    attempts[i + 1]? = some next → ∃ sent rest, next = .sent sent request :: rest ∧
      Expired request (15000 <<< shift) sent attempt

/-- Attempts are given up for a fault, or when all of them have been made and their deadlines have
    passed, or the next one could not be sent. -/
def GaveUp (request : Bytes) (shifts : List ℕ) (s : Socket UInt8)
    (made : List (List (Incident UInt8))) (s' : Socket UInt8) : Prop :=
  some .failed ∈ s.faults ∨
    (∀ (i : ℕ) attempt shift, made[i]? = some attempt → shifts[i]? = some shift →
      Expired request (15000 <<< shift) s'.now attempt) ∧
    (made.length = shifts.length ∨ some .interrupted ∈ s.faults)

/-- An attempt that times out before others that are given up. -/
theorem GaveUp.cons {shift start : ℕ} {shifts : List ℕ} {s₂ : Socket UInt8}
    {made : List (List (Incident UInt8))} (h : GaveUp request shifts s₂ made s')
    (hpassed : s.Passed s₂) (hpassed' : s₂.Passed s') (hexpired : start + 15000 <<< shift ≤ s₂.now) :
    GaveUp request (shift :: shifts) s
      ((.sent s.now request :: .read start :: rest) :: made) s' := by
  refine h.imp (fun hfailed => hpassed.faults.subset hfailed) fun ⟨hall, hlast⟩ => ⟨?_, ?_⟩
  · intro i attempt shift' hattempt hshift
    cases i with
    | zero =>
      obtain rfl := Option.some.inj hattempt
      obtain rfl := Option.some.inj hshift
      exact ⟨s.now, start, rest, rfl, hexpired.trans hpassed'.now⟩
    | succ i => exact hall i attempt shift' hattempt hshift
  · exact hlast.imp (congrArg Nat.succ) fun hmem => hpassed.faults.subset hmem

/-- What an exchange does: at most two attempts, and what the datagrams taken in them decide. If no
    relevant one was taken, it gives up for a fault only, or when both attempts have timed out. -/
structure Exchanged (request : Bytes) (action : ℕ) (s : Socket UInt8)
    (made : List (List (Incident UInt8))) (result : Option ℕ) (response : Bytes) (s' : Socket UInt8) :
    Prop where
  attempted : Attempted request [0, 1] s made s'
  decided : Decided request action (takenOf made.flatten) result response
  gaveUp : result = none → (∀ d ∈ takenOf made.flatten, ¬Relevant request action d) →
    GaveUp request [0, 1] s made s'

/-- What an announce does: the second exchange is for the connection of the first reply, and the
    peers are those of the second reply. -/
inductive Announced (randoms : Randoms) (params : TrackerParams) (s : Socket UInt8) :
    Option UdpResponse → Socket UInt8 → Prop
  | refused {made : List (List (Incident UInt8))} {response : Bytes} {s' : Socket UInt8}
      (hconnect : Exchanged ((connectRequest randoms.connect).take 16) 0 s made none response s') :
      Announced randoms params s none s'
  | unanswered {made made' : List (List (Incident UInt8))} {response response' reply request : Bytes}
      {s₁ s' : Socket UInt8}
      (hconnect : Exchanged ((connectRequest randoms.connect).take 16) 0 s made
        (some reply.length) response s₁)
      (hreply : IsReply ((connectRequest randoms.connect).take 16) 0 reply)
      (hlast : reply ∈ (takenOf made.flatten).getLast?)
      (hrequest : request.take 8 = (reply.drop 8).take 8)
      (hannounce : Exchanged request 1 s₁ made' none response' s') :
      Announced randoms params s none s'
  | answered {made made' : List (List (Incident UInt8))}
      {response response' reply reply' request : Bytes} {s₁ s' : Socket UInt8}
      {result : UdpResponse} {records : List Bytes}
      (hconnect : Exchanged ((connectRequest randoms.connect).take 16) 0 s made
        (some reply.length) response s₁)
      (hreply : IsReply ((connectRequest randoms.connect).take 16) 0 reply)
      (hlast : reply ∈ (takenOf made.flatten).getLast?)
      (hrequest : request.take 8 = (reply.drop 8).take 8)
      (hannounce : Exchanged request 1 s₁ made' (some reply'.length) response' s')
      (hreply' : IsReply request 1 reply')
      (hlast' : reply' ∈ (takenOf made'.flatten).getLast?)
      (hrecords : records.flatten <+: reply'.drop 20)
      (hrecord : ∀ record ∈ records, record.length = 6)
      (hlength : records.length = min 200 ((reply'.length - 20) / 6))
      (hpeers : result.peers =
        records.map fun record => ⟨ntohl (record.take 4), ntohl (record.drop 4)⟩) :
      Announced randoms params s (some result) s'

/-- The first records of six bytes. -/
def recordsOf (count : ℕ) (text : Bytes) : List Bytes :=
  (List.range count).map fun i => (text.drop (6 * i)).take 6

theorem length_of_mem_recordsOf {count : ℕ} {text record : Bytes} (h : 6 * count ≤ text.length)
    (hrecord : record ∈ recordsOf count text) : record.length = 6 := by
  obtain ⟨i, hi, rfl⟩ := List.mem_map.1 hrecord
  have hlt := List.mem_range.1 hi
  rw [List.length_take, List.length_drop]
  omega

end PS5Torrent
