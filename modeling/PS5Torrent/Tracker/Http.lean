import PS5Torrent.Bencode.RoundTrip
import PS5Torrent.HttpServer.Respond
import PS5Torrent.Library.Records
import PS5Torrent.Tracker.Exchange

/-!
# Announces over HTTP

`tracker_announce` for an `http://` URL: a request is sent, and what comes back
up to the end of the connection is read as a response. Whatever comes is either
no response, a failure or a response within bounds (`reply_trackerAnnounce`). An
answer that fits the buffer is read as what it says, however it arrives
(`TrackerAnswer.reply_eq`), and a tracker that reads the request by its
parameters gets the values back (`queryValue_announceRequest`).
-/

namespace PS5Torrent

open Search Sender Receiver Bencode

/-! ## Responses -/

def HTTP_BUF_SIZE : ℕ := 8192

/-- What a character is as a digit; characters are signed. -/
def statusDigit (c : UInt8) : ℤ := (if c.toNat < 128 then (c.toNat : ℤ) else c.toNat - 256) - 48

/-- The status code, and the body behind the blank line. -/
def parseHttpResponse (resp : Bytes) : Option (ℤ × Bytes) :=
  match resp.dropWhile (· ≠ chr ' ') with
  | _ :: a :: b :: c :: p =>
    (search (lit "\r\n\r\n") (a :: b :: c :: p)).map fun blank =>
      (statusDigit a * 100 + statusDigit b * 10 + statusDigit c, (a :: b :: c :: p).drop (blank + 4))
  | _ => none

/-- `tracker_response_t` -/
structure TrackerReply where
  failureReason : Option Bytes
  interval : ℤ
  complete : ℤ
  incomplete : ℤ
  peers : List PeerAddr
deriving DecidableEq

def TrackerReply.failed (reason : Bytes) : TrackerReply := ⟨some reason, 0, 0, 0, []⟩

/-- What the manager makes of a reply. -/
def TrackerReply.response (reply : TrackerReply) : TrackerResponse :=
  ⟨reply.failureReason.isSome, reply.interval, reply.peers⟩

/-- `bcode_dict_get`, of any node. -/
def dictGet (node : BcodeNode) (key : Bytes) : Option BcodeNode :=
  match node with
  | .dict entries => bcodeDictGet entries key
  | _ => none

def failureReason (root : BcodeNode) : Option Bytes :=
  (dictGet root (lit "failure reason")).bind bcodeStrVal

/-- A number of a response, as an `int`. -/
def responseInt (root : BcodeNode) (key : Bytes) : ℤ :=
  match dictGet root key with
  | none => 0
  | some node => toInt32 (bcodeIntVal node)

/-- The peers of a string in compact form, up to the limit. -/
def compactPeers (text : Bytes) : List PeerAddr :=
  (recordsOf (if text.length / 6 > MAX_TRACKER_PEERS then MAX_TRACKER_PEERS else text.length / 6)
    text).map fun record => ⟨ntohl (record.take 4), ntohl (record.drop 4)⟩

/-- A reply that is no failure. -/
def rootReply (root : BcodeNode) : TrackerReply where
  failureReason := none
  interval := if responseInt root (lit "interval") < 60 then 60 else responseInt root (lit "interval")
  complete := responseInt root (lit "complete")
  incomplete := responseInt root (lit "incomplete")
  peers := (((dictGet root (lit "peers")).bind bcodeStrVal).map compactPeers).getD []

/-- What is read of the body of a response. -/
def readReply (statusCode : ℤ) (body : Bytes) : TrackerReply :=
  if statusCode ≠ 200 then
    .failed (((bcodeParse body).bind failureReason).getD (lit "Unknown tracker error"))
  else
    match bcodeParse body with
    | none => .failed (lit "Failed to parse tracker response")
    | some root =>
      match failureReason root with
      | some reason => .failed reason
      | none => rootReply root

def readResponseText (resp : Bytes) : Option TrackerReply :=
  if resp = [] then none
  else (parseHttpResponse resp).map fun (statusCode, body) => readReply statusCode body

/-! ## Announces -/

/-- What comes after the host and the port in a URL. -/
def announcePath (url : Bytes) : Bytes := (url.drop 7).dropWhile (· ≠ chr '/')

/-- `tracker_announce` for an `http://` URL; `connects` tells whether there is a
    connection with its timeouts set. -/
def trackerAnnounceHttp (resolve : Bytes → Option ℕ) (connects : Bool) (params : TrackerParams)
    (url : Bytes) (s : Sender UInt8) (r : Receiver UInt8) :
    Option TrackerReply × Sender UInt8 × Receiver UInt8 :=
  match trackerConnection resolve params url with
  | none => (none, s, r)
  | some (host, _) =>
    if !connects then (none, s, r)
    else
      match sendAll (announceRequest params (announcePath url) host) s with
      | (false, s) => (none, s, r)
      | (true, s) =>
        match recvUpTo (HTTP_BUF_SIZE * 4) (HTTP_BUF_SIZE * 4) r with
        | (resp, r) => (readResponseText resp, s, r)

variable {resolve : Bytes → Option ℕ} {connects : Bool} {params : TrackerParams} {url host : Bytes}
  {s : Sender UInt8} {r : Receiver UInt8} {reply : TrackerReply}

/-- Only what is sent matters, not how it arrives: the start of it is read, up to the size of the
    buffer. -/
theorem trackerAnnounceHttp_eq_some
    (h : (trackerAnnounceHttp resolve connects params url s r).1 = some reply) :
    ∃ host port, trackerConnection resolve params url = some (host, port) ∧
      (trackerAnnounceHttp resolve connects params url s r).2.1.sent =
        s.sent ++ announceRequest params (announcePath url) host ∧
      readResponseText (r.unread.take (HTTP_BUF_SIZE * 4)) = some reply := by
  rw [trackerAnnounceHttp] at h ⊢
  cases hconn : trackerConnection resolve params url with
  | none =>
    rw [hconn] at h
    cases h
  | some target =>
    obtain ⟨host, port⟩ := target
    rw [hconn] at h
    dsimp only at h ⊢
    split at h
    · cases h
    case isFalse hconnects =>
      rw [if_neg hconnects]
      obtain ⟨n, -, hsent, hok, -⟩ := sendAll_eq (announceRequest params (announcePath url) host) s
      rcases hsend : sendAll (announceRequest params (announcePath url) host) s with ⟨_ | _, s'⟩
      · rw [hsend] at h
        cases h
      · rw [hsend] at h hsent hok
        obtain ⟨r', hrecv, -⟩ := recvUpTo_eq (le_refl (HTTP_BUF_SIZE * 4)) r
        rw [hrecv] at h ⊢
        refine ⟨host, port, rfl, ?_, h⟩
        rw [hok.1 rfl, List.take_length] at hsent
        exact hsent

/-- A connection that takes the request in some number of calls: its response is read. -/
theorem trackerAnnounceHttp_of_takes {port : ℕ}
    (hconn : trackerConnection resolve params url = some (host, port)) (hs : s.Takes) :
    (trackerAnnounceHttp resolve true params url s r).1 =
      readResponseText (r.unread.take (HTTP_BUF_SIZE * 4)) := by
  obtain ⟨n, -, -, hok, htakes⟩ := sendAll_eq (announceRequest params (announcePath url) host) s
  have htrue := hok.2 (htakes hs)
  obtain ⟨r', hrecv, -⟩ := recvUpTo_eq (le_refl (HTTP_BUF_SIZE * 4)) r
  rw [trackerAnnounceHttp, hconn]
  dsimp only
  rcases hsend : sendAll (announceRequest params (announcePath url) host) s with ⟨ok, s'⟩
  rw [hsend] at htrue
  obtain rfl : ok = true := htrue
  rw [hrecv]
  rfl

/-! ## Bounds -/

/-- A reply is a failure, with nothing else, or its numbers are an `int`, the interval at least a
    minute, and its peers no more than the limit, each with an address and a port. -/
structure TrackerReply.Bounded (reply : TrackerReply) : Prop where
  failed : reply.failureReason.isSome → reply.interval = 0 ∧ reply.peers = []
  interval : reply.failureReason = none → 60 ≤ reply.interval
  ints : ∀ n ∈ [reply.interval, reply.complete, reply.incomplete], -2 ^ 31 ≤ n ∧ n < 2 ^ 31
  length_peers : reply.peers.length ≤ MAX_TRACKER_PEERS
  peers : ∀ peer ∈ reply.peers, peer.ip < 2 ^ 32 ∧ peer.port < 2 ^ 16

theorem ntohl_lt (b : Bytes) : ntohl b < 256 ^ b.length := by
  have hfold (b : Bytes) (n : ℕ) :
      b.foldl (fun n x => 256 * n + x.toNat) n < 256 ^ b.length * (n + 1) := by
    induction b generalizing n with
    | nil => simp
    | cons x b ih =>
      rw [List.foldl_cons, List.length_cons, pow_succ]
      have hx := x.toNat_lt
      calc _ < 256 ^ b.length * (256 * n + x.toNat + 1) := ih _
        _ ≤ 256 ^ b.length * (256 * (n + 1)) := Nat.mul_le_mul_left _ (by omega)
        _ = _ := by ring
  have h := hfold b 0
  rw [Nat.zero_add, Nat.mul_one] at h
  exact h

theorem length_recordsOf (count : ℕ) (text : Bytes) : (recordsOf count text).length = count := by
  rw [recordsOf, List.length_map, List.length_range]

theorem length_compactPeers_le (text : Bytes) : (compactPeers text).length ≤ MAX_TRACKER_PEERS := by
  rw [compactPeers, List.length_map, length_recordsOf]
  split <;> omega

theorem lt_of_mem_compactPeers {text : Bytes} {peer : PeerAddr} (h : peer ∈ compactPeers text) :
    peer.ip < 2 ^ 32 ∧ peer.port < 2 ^ 16 := by
  obtain ⟨record, hrecord, rfl⟩ := List.mem_map.1 h
  have hle : 6 * (if text.length / 6 > MAX_TRACKER_PEERS then MAX_TRACKER_PEERS
      else text.length / 6) ≤ text.length := by
    split <;> omega
  have hlength := length_of_mem_recordsOf hle hrecord
  have hip := ntohl_lt (record.take 4)
  have hport := ntohl_lt (record.drop 4)
  rw [List.length_take, hlength] at hip
  rw [List.length_drop, hlength] at hport
  exact ⟨hip, hport⟩

theorem bounded_failed (reason : Bytes) : (TrackerReply.failed reason).Bounded where
  failed _ := ⟨rfl, rfl⟩
  interval h := nomatch h
  ints n hn := by
    have hzero : n = 0 := by simpa [TrackerReply.failed] using hn
    omega
  length_peers := Nat.zero_le _
  peers _ hpeer := nomatch hpeer

theorem responseInt_mem (root : BcodeNode) (key : Bytes) :
    -2 ^ 31 ≤ responseInt root key ∧ responseInt root key < 2 ^ 31 := by
  rw [responseInt]
  split
  · decide
  · exact ⟨Int.le_bmod (by decide), Int.bmod_lt (by decide)⟩

theorem bounded_rootReply (root : BcodeNode) : (rootReply root).Bounded where
  failed h := nomatch h
  interval _ := by
    rw [rootReply]
    dsimp only
    split <;> omega
  ints := by
    have hinterval := responseInt_mem root (lit "interval")
    refine List.forall_mem_cons.2 ⟨?_, List.forall_mem_cons.2
      ⟨responseInt_mem _ _, List.forall_mem_singleton.2 (responseInt_mem _ _)⟩⟩
    rw [rootReply]
    dsimp only
    split
    · decide
    · exact hinterval
  length_peers := by
    rw [rootReply]
    cases (dictGet root (lit "peers")).bind bcodeStrVal with
    | none => exact Nat.zero_le _
    | some text => exact length_compactPeers_le text
  peers peer hpeer := by
    rw [rootReply] at hpeer
    cases htext : (dictGet root (lit "peers")).bind bcodeStrVal with
    | none =>
      rw [htext] at hpeer
      cases hpeer
    | some text =>
      rw [htext] at hpeer
      exact lt_of_mem_compactPeers hpeer

theorem bounded_readReply (statusCode : ℤ) (body : Bytes) : (readReply statusCode body).Bounded := by
  rw [readReply]
  split
  · exact bounded_failed _
  · cases bcodeParse body with
    | none => exact bounded_failed _
    | some root =>
      dsimp only
      cases failureReason root with
      | some reason => exact bounded_failed _
      | none => exact bounded_rootReply root

/-- Whatever a server sends, and however it arrives: there is no reply unless the whole request was
    sent, a reply depends only on the first 32 KiB, and it is a failure or within bounds. -/
theorem reply_trackerAnnounce
    (h : (trackerAnnounceHttp resolve connects params url s r).1 = some reply) :
    reply.Bounded ∧
      (∃ host port, trackerConnection resolve params url = some (host, port) ∧
        (trackerAnnounceHttp resolve connects params url s r).2.1.sent =
          s.sent ++ announceRequest params (announcePath url) host) ∧
      readResponseText (r.unread.take (HTTP_BUF_SIZE * 4)) = some reply := by
  obtain ⟨host, port, hconn, hsent, hread⟩ := trackerAnnounceHttp_eq_some h
  refine ⟨?_, ⟨host, port, hconn, hsent⟩, hread⟩
  rw [readResponseText] at hread
  split at hread
  · cases hread
  · obtain ⟨⟨statusCode, body⟩, -, rfl⟩ := Option.map_eq_some_iff.1 hread
    exact bounded_readReply statusCode body

/-! ## Answers -/

/-- A peer in compact form. -/
def compactRecord (peer : PeerAddr) : Bytes :=
  put32 peer.ip ++ [UInt8.ofNat (peer.port >>> 8), UInt8.ofNat peer.port]

/-- What a tracker answers, with the lines of the header and what else is in the dictionary. -/
structure TrackerAnswer where
  version : Bytes
  reason : Bytes
  lines : List Bytes
  entries : List (Bytes × BcodeNode)
  interval : ℤ
  complete : ℤ
  incomplete : ℤ
  peers : List PeerAddr
  version_plain : chr ' ' ∉ version
  reason_plain : CR ∉ reason
  lines_plain : ∀ line ∈ lines, line ≠ [] ∧ CR ∉ line
  isInt64 : IsInt64 (.dict entries)
  success : (bcodeDictGet entries (lit "failure reason")).bind bcodeStrVal = none
  interval_entry : bcodeDictGet entries (lit "interval") = some (.int interval)
  complete_entry : bcodeDictGet entries (lit "complete") = some (.int complete)
  incomplete_entry : bcodeDictGet entries (lit "incomplete") = some (.int incomplete)
  peers_entry : bcodeDictGet entries (lit "peers") = some (.str (peers.flatMap compactRecord))
  ints : ∀ n ∈ [interval, complete, incomplete], -2 ^ 31 ≤ n ∧ n < 2 ^ 31
  peers_lt : ∀ peer ∈ peers, peer.ip < 2 ^ 32 ∧ peer.port < 2 ^ 16

namespace TrackerAnswer

def encode (a : TrackerAnswer) : Bytes :=
  a.version ++ chr ' ' ::
    (linesText ((lit "200 " ++ a.reason) :: a.lines) ++ (lit "\r\n" ++ bcodeEncode (.dict a.entries)))

/-- What the answer says. -/
def toReply (a : TrackerAnswer) : TrackerReply where
  failureReason := none
  interval := max 60 a.interval
  complete := a.complete
  incomplete := a.incomplete
  peers := a.peers.take 200

end TrackerAnswer

theorem length_compactRecord (peer : PeerAddr) : (compactRecord peer).length = 6 := rfl

theorem ntohl_compactRecord {peer : PeerAddr} (hip : peer.ip < 2 ^ 32) (hport : peer.port < 2 ^ 16) :
    (⟨ntohl ((compactRecord peer).take 4), ntohl ((compactRecord peer).drop 4)⟩ : PeerAddr) = peer := by
  obtain ⟨ip, port⟩ := peer
  have hshift (n k : ℕ) : n >>> k = n / 2 ^ k := Nat.shiftRight_eq_div_pow n k
  have hip' : ntohl ((compactRecord ⟨ip, port⟩).take 4) = ip := by
    simp only [compactRecord, put32, ntohl, List.map_cons, List.map_nil, List.cons_append,
      List.take_succ_cons, List.take_zero, List.foldl_cons, List.foldl_nil, UInt8.toNat_ofNat', hshift]
    dsimp only at hip
    omega
  have hport' : ntohl ((compactRecord ⟨ip, port⟩).drop 4) = port := by
    simp only [compactRecord, put32, ntohl, List.map_cons, List.map_nil, List.cons_append,
      List.drop_succ_cons, List.drop_zero, List.nil_append, List.foldl_cons, List.foldl_nil,
      UInt8.toNat_ofNat', hshift]
    dsimp only at hport
    omega
  rw [hip', hport']

/-- The records are those of the first peers. -/
theorem recordsOf_flatMap {count : ℕ} {peers : List PeerAddr} (hcount : count ≤ peers.length) :
    recordsOf count (peers.flatMap compactRecord) = (peers.take count).map compactRecord := by
  refine List.ext_getElem? fun i => ?_
  rcases lt_or_ge i count with hi | hi
  · have hget : peers[i]? = some peers[i] := List.getElem?_eq_getElem (hi.trans_le hcount)
    rw [recordsOf, List.getElem?_map, List.getElem?_range hi, List.getElem?_map,
      List.getElem?_take_of_lt hi, hget]
    exact congrArg some (Records.take_drop_flatMap length_compactRecord hget)
  · have hlength : ((peers.take count).map compactRecord).length = count := by
      rw [List.length_map, List.length_take_of_le hcount]
    rw [List.getElem?_eq_none (hlength.trans_le hi)]
    refine List.getElem?_eq_none ?_
    rwa [recordsOf, List.length_map, List.length_range]

theorem compactPeers_flatMap {peers : List PeerAddr}
    (hpeers : ∀ peer ∈ peers, peer.ip < 2 ^ 32 ∧ peer.port < 2 ^ 16) :
    compactPeers (peers.flatMap compactRecord) = peers.take 200 := by
  have hcount : (if (peers.flatMap compactRecord).length / 6 > MAX_TRACKER_PEERS then
      MAX_TRACKER_PEERS else (peers.flatMap compactRecord).length / 6) = min 200 peers.length := by
    have hmax : MAX_TRACKER_PEERS = 200 := rfl
    rw [Records.length_flatMap length_compactRecord, hmax]
    split <;> omega
  rw [compactPeers, hcount, recordsOf_flatMap (min_le_right _ _), List.map_map,
    ← List.take_eq_take_min]
  refine (List.map_congr_left fun peer hpeer => ?_).trans (List.map_id _)
  obtain ⟨hip, hport⟩ := hpeers peer (List.mem_of_mem_take hpeer)
  exact ntohl_compactRecord hip hport

namespace TrackerAnswer

variable {a : TrackerAnswer}

theorem parseHttpResponse_encode (a : TrackerAnswer) :
    parseHttpResponse a.encode = some (200, bcodeEncode (.dict a.entries)) := by
  obtain ⟨lines, hlines⟩ : ∃ lines, lines = (lit "200 " ++ a.reason) :: a.lines := ⟨_, rfl⟩
  have hne : lines ≠ [] := hlines ▸ List.cons_ne_nil _ _
  have hplain : ∀ line ∈ lines, line ≠ [] ∧ CR ∉ line := by
    have hstatus : CR ∉ lit "200 " := by decide
    rw [hlines]
    refine List.forall_mem_cons.2 ⟨⟨?_, ?_⟩, a.lines_plain⟩
    · exact List.append_ne_nil_of_left_ne_nil (by decide) _
    · exact fun h => (List.mem_append.1 h).elim hstatus a.reason_plain
  have hskip : a.encode.dropWhile (· ≠ chr ' ') = chr ' ' ::
      (linesText lines ++ (lit "\r\n" ++ bcodeEncode (.dict a.entries))) := by
    rw [encode, ← hlines, List.dropWhile_append_of_pos fun b hb =>
      decide_eq_true (ne_of_mem_of_not_mem hb a.version_plain)]
    rfl
  have hblank := search_linesText hne hplain (bcodeEncode (.dict a.entries))
  have hrest : (linesText lines ++ (lit "\r\n" ++ bcodeEncode (.dict a.entries))).drop
      ((linesText lines).length - 2 + 4) = bcodeEncode (.dict a.entries) := by
    rw [length_linesText hne, ← List.append_assoc, List.drop_left]
  obtain ⟨p, hp⟩ : ∃ p, linesText lines ++ (lit "\r\n" ++ bcodeEncode (.dict a.entries)) =
      chr '2' :: chr '0' :: chr '0' :: p := by
    rw [hlines]
    exact ⟨_, rfl⟩
  rw [hp] at hblank hrest
  rw [parseHttpResponse, hskip, hp]
  dsimp only
  rw [hblank, Option.map_some, hrest]
  rfl

theorem bcodeParse_entries (a : TrackerAnswer) (hlength : a.encode.length ≤ HTTP_BUF_SIZE * 4) :
    bcodeParse (bcodeEncode (.dict a.entries)) = some (.dict a.entries) := by
  have hle : (bcodeEncode (.dict a.entries)).length ≤ a.encode.length := by
    rw [encode, List.length_append, List.length_cons, List.length_append, List.length_append]
    omega
  have hmax : HTTP_BUF_SIZE * 4 ≤ PTRDIFF_MAX := by decide
  have hloose := (a.isInt64.parses []).loose (by rw [List.append_nil]; omega)
  rw [List.append_nil] at hloose
  exact (bcodeParse_eq_some_iff (by omega)).2 ⟨[], hloose⟩

theorem rootReply_entries (a : TrackerAnswer) : rootReply (.dict a.entries) = a.toReply := by
  have hinterval := a.ints a.interval (by simp)
  have hcomplete := a.ints a.complete (by simp)
  have hincomplete := a.ints a.incomplete (by simp)
  have hint (key : Bytes) {n : ℤ} (hn : -2 ^ 31 ≤ n ∧ n < 2 ^ 31)
      (hkey : bcodeDictGet a.entries key = some (.int n)) :
      responseInt (.dict a.entries) key = n := by
    rw [responseInt, dictGet, hkey]
    exact toInt32_of_mem hn.1 hn.2
  rw [rootReply, toReply, hint _ hinterval a.interval_entry, hint _ hcomplete a.complete_entry,
    hint _ hincomplete a.incomplete_entry, dictGet, a.peers_entry, Option.bind_some, bcodeStrVal,
    Option.map_some, Option.getD_some, compactPeers_flatMap a.peers_lt]
  congr 1
  split <;> omega

/-- An answer that fits the buffer is read as what it says, however it arrives. -/
theorem reply_eq (a : TrackerAnswer) {port : ℕ}
    (hconn : trackerConnection resolve params url = some (host, port)) (hs : s.Takes)
    (hr : r.unread = a.encode) (hlength : a.encode.length ≤ HTTP_BUF_SIZE * 4) :
    (trackerAnnounceHttp resolve true params url s r).1 = some a.toReply := by
  have hne : a.encode ≠ [] := List.append_ne_nil_of_right_ne_nil _ (List.cons_ne_nil _ _)
  have hsuccess : failureReason (.dict a.entries) = none := a.success
  rw [trackerAnnounceHttp_of_takes hconn hs, hr, List.take_of_length_le hlength, readResponseText,
    if_neg hne, a.parseHttpResponse_encode, Option.map_some]
  dsimp only
  rw [readReply, if_neg (not_not.2 rfl), a.bcodeParse_entries hlength]
  dsimp only
  rw [hsuccess]
  dsimp only
  rw [a.rootReply_entries]

end TrackerAnswer

/-! ## Requests -/

/-- The parameters of a request, and their values. -/
def announceParams (params : TrackerParams) : List (Bytes × Bytes) :=
  [(lit "info_hash", params.infoHash), (lit "peer_id", params.peerId),
    (lit "port", Decimal.print params.port), (lit "uploaded", printInt params.uploaded),
    (lit "downloaded", printInt params.downloaded), (lit "left", printInt params.left),
    (lit "compact", printInt (if params.compact then 1 else 0)),
    (lit "numwant", printInt MAX_TRACKER_PEERS)]

/-- How a tracker reads the target of a request: the second word. -/
def requestTarget (request : Bytes) : Bytes :=
  (request.dropWhile (· ≠ chr ' ')).tail.takeWhile (· ≠ chr ' ')

def targetQuery (target : Bytes) : Bytes := (target.dropWhile (· ≠ chr '?')).tail

/-- How a tracker reads a parameter: the first field with its key, decoded. -/
def queryValue (key query : Bytes) : Option Bytes :=
  (query.splitOn (chr '&')).findSome? fun field =>
    if (key ++ [chr '=']).isPrefixOf field then some (urlDecode (field.drop (key.length + 1)))
    else none

def announceField (pair : Bytes × Bytes) : Bytes := pair.1 ++ chr '=' :: netCoding.encode pair.2

/-- The query that is added to the path. -/
def announceQuery (params : TrackerParams) : Bytes :=
  [chr '&'].intercalate ((announceParams params).map announceField)

theorem netEncode_print (n : ℕ) : netCoding.encode (Decimal.print n) = Decimal.print n := by
  refine encode_of_safe fun b hb => ?_
  have hdigit := Decimal.isDigit_iff.1 (Decimal.isDigit_of_mem_print hb)
  have hrange : chr '0' ≤ b ∧ b ≤ chr '9' :=
    ⟨UInt8.le_iff_toNat_le.2 hdigit.1, UInt8.le_iff_toNat_le.2 hdigit.2⟩
  show isUnreserved b
  simp [isUnreserved, hrange]

theorem netEncode_printInt (x : ℤ) : netCoding.encode (printInt x) = printInt x := by
  rw [printInt]
  split
  · have hminus : netCoding.byte (chr '-') = [chr '-'] := by decide
    rw [encode_cons, hminus, netEncode_print]
    rfl
  · exact netEncode_print _

theorem announceQuery_eq (params : TrackerParams) : announceQuery params =
    lit "info_hash=" ++ netUrlEncode params.infoHash ++
    lit "&peer_id=" ++ netUrlEncode params.peerId ++
    lit "&port=" ++ Decimal.print params.port ++
    lit "&uploaded=" ++ printInt params.uploaded ++
    lit "&downloaded=" ++ printInt params.downloaded ++
    lit "&left=" ++ printInt params.left ++
    lit "&compact=" ++ printInt (if params.compact then 1 else 0) ++
    lit "&numwant=" ++ printInt MAX_TRACKER_PEERS := by
  have hfirst : lit "info_hash=" = lit "info_hash" ++ [chr '='] := rfl
  have hid : lit "&peer_id=" = chr '&' :: (lit "peer_id" ++ [chr '=']) := rfl
  have hport : lit "&port=" = chr '&' :: (lit "port" ++ [chr '=']) := rfl
  have huploaded : lit "&uploaded=" = chr '&' :: (lit "uploaded" ++ [chr '=']) := rfl
  have hdownloaded : lit "&downloaded=" = chr '&' :: (lit "downloaded" ++ [chr '=']) := rfl
  have hleft : lit "&left=" = chr '&' :: (lit "left" ++ [chr '=']) := rfl
  have hcompact : lit "&compact=" = chr '&' :: (lit "compact" ++ [chr '=']) := rfl
  have hnumwant : lit "&numwant=" = chr '&' :: (lit "numwant" ++ [chr '=']) := rfl
  rw [hfirst, hid, hport, huploaded, hdownloaded, hleft, hcompact, hnumwant]
  simp only [announceQuery, announceParams, announceField, List.map_cons, List.map_nil,
    List.intercalate, List.intersperse, List.flatten_cons, List.flatten_nil, netUrlEncode_eq,
    netEncode_print, netEncode_printInt, List.append_assoc, List.cons_append, List.nil_append,
    List.append_nil]

/-- The target of the request is the path with the parameters. -/
theorem announceRequest_eq (params : TrackerParams) (path host : Bytes) :
    announceRequest params path host = lit "GET" ++ chr ' ' ::
      ((path ++ (if chr '?' ∈ path then chr '&' else chr '?') :: announceQuery params) ++ chr ' ' ::
        (lit "HTTP/1.0\r\nHost: " ++ host ++
          lit "\r\nUser-Agent: PS5Torrent/1.0\r\nConnection: close\r\n\r\n")) := by
  have hget : lit "GET " = lit "GET" ++ [chr ' '] := rfl
  have hversion : lit " HTTP/1.0\r\nHost: " = chr ' ' :: lit "HTTP/1.0\r\nHost: " := rfl
  have hseparator : (if chr '?' ∈ path then lit "&" else lit "?") =
      [if chr '?' ∈ path then chr '&' else chr '?'] := by
    split <;> rfl
  unfold announceRequest
  rw [hget, hversion, hseparator, announceQuery_eq]
  simp only [List.append_assoc, List.cons_append, List.nil_append]

/-- The fields of the query are those of the parameters. -/
theorem not_mem_announceField {b : UInt8} (hb : b = chr ' ' ∨ b = chr '&') (params : TrackerParams) :
    ∀ field ∈ (announceParams params).map announceField, b ∉ field := by
  have hkeys : ∀ pair ∈ announceParams params, b ∉ pair.1 := by
    rcases hb with rfl | rfl
    · simp only [announceParams, List.forall_mem_cons]
      decide
    · simp only [announceParams, List.forall_mem_cons]
      decide
  have heq : b ≠ chr '=' ∧ b ≠ chr '%' ∧ isUnreserved b = false ∧
      ∀ n < 16, b ≠ hexChar n := by
    rcases hb with rfl | rfl <;> decide
  intro field hfield
  obtain ⟨⟨key, v⟩, hpair, rfl⟩ := List.mem_map.1 hfield
  rw [announceField, List.mem_append, List.mem_cons]
  rintro (hmem | hmem | hmem)
  · exact hkeys _ hpair hmem
  · exact heq.1 hmem
  · -- an encoded byte is not reserved, or a percent sign and digits
    obtain ⟨c, -, hmem⟩ := List.mem_flatMap.1 hmem
    have hlt := c.toNat_lt
    rw [PercentCoding.byte] at hmem
    split at hmem
    case isTrue hsafe =>
      obtain rfl := List.mem_singleton.1 hmem
      exact Bool.false_ne_true (heq.2.2.1.symm.trans hsafe)
    case isFalse =>
      rcases List.mem_cons.1 hmem with h | hmem
      · exact heq.2.1 h
      · rcases List.mem_cons.1 hmem with h | hmem
        · exact heq.2.2.2 _ (by omega) h
        · exact heq.2.2.2 _ (by omega) (List.mem_singleton.1 hmem)

theorem not_mem_intercalate {b c : UInt8} {fields : List Bytes} (hc : b ≠ c)
    (h : ∀ field ∈ fields, b ∉ field) : b ∉ [c].intercalate fields := by
  induction fields with
  | nil => exact List.not_mem_nil
  | cons field fields ih =>
    rw [List.forall_mem_cons] at h
    cases fields with
    | nil => simpa [List.intercalate] using h.1
    | cons field' fields =>
      have hrest := ih h.2
      rw [List.intercalate] at hrest ⊢
      rw [List.intersperse_cons_cons, List.flatten_cons, List.flatten_cons, List.mem_append,
        List.mem_append, List.mem_singleton]
      exact not_or.2 ⟨h.1, not_or.2 ⟨hc, hrest⟩⟩

theorem not_mem_announceQuery (params : TrackerParams) : chr ' ' ∉ announceQuery params :=
  not_mem_intercalate (by decide) (not_mem_announceField (.inl rfl) params)

/-- A field is that of a parameter exactly if it has its key. -/
theorem findSome?_announceField {pairs : List (Bytes × Bytes)} {key : Bytes} (hkey : chr '=' ∉ key)
    (hpairs : ∀ pair ∈ pairs, chr '=' ∉ pair.1) :
    (pairs.map announceField).findSome? (fun field =>
      if (key ++ [chr '=']).isPrefixOf field then some (urlDecode (field.drop (key.length + 1)))
      else none) = pairs.lookup key := by
  induction pairs with
  | nil => rfl
  | cons pair pairs ih =>
    obtain ⟨key', v⟩ := pair
    rw [List.forall_mem_cons] at hpairs
    have hfield : (key ++ [chr '=']).isPrefixOf (announceField (key', v)) ↔ key = key' := by
      rw [List.isPrefixOf_iff_prefix, announceField]
      exact prefix_formParam_iff hkey hpairs.1
    rw [List.map_cons, List.findSome?_cons, List.lookup_cons]
    by_cases heq : key = key'
    · have hdecode := urlDecode_encode netCoding v []
      rw [List.append_nil, urlDecode, List.append_nil] at hdecode
      rw [if_pos (hfield.2 heq), announceField, heq, List.drop_length_add_append, List.drop_one,
        List.tail_cons, hdecode, beq_self_eq_true]
    · rw [if_neg (mt hfield.1 heq), beq_eq_false_iff_ne.2 heq]
      exact ih hpairs.2

/-- A tracker that reads the request by its parameters gets their values back, whatever bytes the
    hash and the id have, if the path has no space and none of the parameters itself. -/
theorem queryValue_announceRequest (params : TrackerParams) {path : Bytes} (host : Bytes)
    (hspace : chr ' ' ∉ path)
    (hown : ∀ pair ∈ announceParams params, queryValue pair.1 (targetQuery path) = none) :
    ∀ pair ∈ announceParams params,
      queryValue pair.1 (targetQuery (requestTarget (announceRequest params path host))) =
        some pair.2 := by
  intro pair hpair
  have hkeys : ∀ pair ∈ announceParams params, chr '=' ∉ pair.1 := by
    simp only [announceParams, List.forall_mem_cons]
    decide
  -- the target is what comes between the spaces
  have htarget : requestTarget (announceRequest params path host) =
      path ++ (if chr '?' ∈ path then chr '&' else chr '?') :: announceQuery params := by
    have hmem : chr ' ' ∉ path ++ (if chr '?' ∈ path then chr '&' else chr '?') ::
        announceQuery params := by
      rw [List.mem_append, List.mem_cons]
      refine not_or.2 ⟨hspace, not_or.2 ⟨?_, not_mem_announceQuery params⟩⟩
      split <;> decide
    rw [requestTarget, announceRequest_eq, List.dropWhile_append_of_pos fun b hb =>
      decide_eq_true (ne_of_mem_of_not_mem hb (by decide)), List.dropWhile_cons_of_neg (by simp),
      List.tail_cons, takeWhile_ne_append hmem]
  have hquery : (announceQuery params).splitOn (chr '&') =
      (announceParams params).map announceField := by
    rw [announceQuery, List.splitOn_intercalate (chr '&')
      (not_mem_announceField (.inr rfl) params) (by simp [announceParams])]
  have hvalue : queryValue pair.1 (announceQuery params) = some pair.2 := by
    rw [queryValue, hquery, findSome?_announceField (hkeys pair hpair) hkeys]
    revert pair
    simp only [announceParams, List.forall_mem_cons]
    exact ⟨rfl, rfl, rfl, rfl, rfl, rfl, rfl, rfl, List.forall_mem_nil _⟩
  have hskip {x : Bytes} (hx : chr '?' ∉ x) (y : Bytes) :
      targetQuery (x ++ chr '?' :: y) = y := by
    rw [targetQuery, List.dropWhile_append_of_pos fun b hb =>
      decide_eq_true (ne_of_mem_of_not_mem hb hx), List.dropWhile_cons_of_neg (by simp),
      List.tail_cons]
  rw [htarget]
  by_cases hmark : chr '?' ∈ path
  · -- the path has parameters, which come first
    obtain ⟨x, own, hpath, hx⟩ := List.eq_append_cons_of_mem hmark
    have hnone := hown pair hpair
    rw [hpath, hskip hx, queryValue] at hnone
    rw [if_pos hmark, hpath, List.append_assoc, List.cons_append, hskip hx, queryValue,
      List.splitOn_append_cons_self, List.findSome?_append, hnone, Option.none_or]
    exact hvalue
  · rw [if_neg hmark, hskip hmark]
    exact hvalue

/-! ### An announce -/

def startParams : TrackerParams where
  infoHash := List.replicate 19 0 ++ [chr '&']
  peerId := lit "-PS5T-0123456789abcd"
  port := 6881
  uploaded := 0
  downloaded := 0
  left := 16384
  compact := true

/-- A path with a key of its own. -/
theorem queryValue_announceRequest_passkey : chr ' ' ∉ lit "/announce?key=1" ∧
    ∀ pair ∈ announceParams startParams, queryValue pair.1 (targetQuery (requestTarget
      (announceRequest startParams (lit "/announce?key=1") (lit "t")))) = some pair.2 := by
  have hown : ∀ pair ∈ announceParams startParams,
      queryValue pair.1 (targetQuery (lit "/announce?key=1")) = none := by
    have hquery : targetQuery (lit "/announce?key=1") = lit "key=1" := by decide
    have hfields : (lit "key=1").splitOn (chr '&') = [lit "key=1"] :=
      List.splitOn_eq_singleton (by decide)
    simp only [queryValue, hquery, hfields]
    decide +kernel
  have hspace : chr ' ' ∉ lit "/announce?key=1" := by decide
  exact ⟨hspace, queryValue_announceRequest startParams (lit "t") hspace hown⟩

/-- The peer a tracker on the console itself answers with. -/
def localPeers : List PeerAddr := [⟨2130706433, 6881⟩]

/-- The dictionary of an answer with some peers. -/
def localEntries (peers : Bytes) : List (Bytes × BcodeNode) :=
  [(lit "complete", .int 1), (lit "incomplete", .int 2), (lit "interval", .int 30),
    (lit "peers", .str peers)]

theorem peers_localEntries (peers : Bytes) :
    bcodeDictGet (localEntries peers) (lit "peers") = some (.str peers) := rfl

def localAnswer : TrackerAnswer where
  version := lit "HTTP/1.0"
  reason := lit "OK"
  lines := [lit "Content-Type: text/plain"]
  entries := localEntries (localPeers.flatMap compactRecord)
  interval := 30
  complete := 1
  incomplete := 2
  peers := localPeers
  version_plain := by decide
  reason_plain := by decide
  lines_plain := by decide
  isInt64 := by
    have hint {n : ℤ} (hn : 0 ≤ n ∧ n ≤ 30) : IsInt64 (.int n) :=
      .int (le_trans (by decide) hn.1) (le_trans hn.2 (by decide))
    refine .dict ?_
    simp only [localEntries, List.forall_mem_cons]
    exact ⟨hint (by decide), hint (by decide), hint (by decide), .str _, List.forall_mem_nil _⟩
  success := rfl
  interval_entry := rfl
  complete_entry := rfl
  incomplete_entry := rfl
  peers_entry := peers_localEntries _
  ints := by decide
  peers_lt := by decide

/-- An announce to a tracker that sends its answer in two parts. -/
def localAnnounce : Option TrackerReply × Sender UInt8 × Receiver UInt8 :=
  trackerAnnounceHttp (fun _ => some 1) true startParams (lit "http://t/a") (bySevens none)
    (inTwo 20 localAnswer.encode)

theorem reply_eq_localAnswer : localAnnounce.1 = some localAnswer.toReply := by
  have hconn : trackerConnection (fun _ => some 1) startParams (lit "http://t/a") =
      some (lit "t", 80) := by decide +kernel
  exact localAnswer.reply_eq hconn (fun _ => ⟨6, rfl⟩) rfl (by decide +kernel)

/-- What a tracker without the torrent sends. -/
def failedAnswer : Bytes := lit "HTTP/1.0 404 Not Found\r\n\r\nd14:failure reason7:unknowne"

def failedAnnounce : Option TrackerReply × Sender UInt8 × Receiver UInt8 :=
  trackerAnnounceHttp (fun _ => some 1) true startParams (lit "http://t/a") (bySevens none)
    (inTwo 20 failedAnswer)

theorem reply_trackerAnnounce_failed : (TrackerReply.failed (lit "unknown")).Bounded ∧
    (∃ host port, trackerConnection (fun _ => some 1) startParams (lit "http://t/a") =
        some (host, port) ∧ failedAnnounce.2.1.sent =
          [] ++ announceRequest startParams (announcePath (lit "http://t/a")) host) ∧
    readResponseText ((inTwo 20 failedAnswer).unread.take (HTTP_BUF_SIZE * 4)) =
      some (.failed (lit "unknown")) := by
  have hreply : failedAnnounce.1 = some (.failed (lit "unknown")) := by decide +kernel
  rw [failedAnnounce] at hreply ⊢
  exact reply_trackerAnnounce hreply

end PS5Torrent
