import PS5Torrent.HttpServer.Parse
import PS5Torrent.Library.Sender

/-!
# Sending responses

`http_server_send_response`: a header and a body, both sent in as many calls as
it takes. What the client receives is the start of the response, whatever the
network does (`httpServerSendResponse_sent`). A client that reads the response
by its header (`readResponse`) gets the status, the type and the body back
(`readResponse_wire`).
-/

namespace PS5Torrent

open Search Decimal Sender

def reasonPhrase (statusCode : ℕ) : Bytes :=
  if statusCode = 200 then lit "OK"
  else if statusCode = 404 then lit "Not Found"
  else if statusCode = 400 then lit "Bad Request"
  else lit "Error"

def statusLine (resp : HttpResponse) : Bytes :=
  lit "HTTP/1.1 " ++ print resp.statusCode ++ chr ' ' :: reasonPhrase resp.statusCode

/-- The lines of the header after the status line. -/
def responseFields (resp : HttpResponse) : List Bytes :=
  [lit "Content-Type: " ++ cstr resp.contentType,
    lit "Content-Length: " ++ print resp.bodyLen,
    lit "Connection: close",
    lit "Access-Control-Allow-Origin: *",
    lit "Cache-Control: no-cache"]

/-- The text that `snprintf` makes of the header. -/
def responseHeader (resp : HttpResponse) : Bytes :=
  statusLine resp ++ lit "\r\n" ++ linesText (responseFields resp) ++ lit "\r\n"

/-- What a client receives if nothing is lost. -/
def HttpResponse.wire (resp : HttpResponse) : Bytes := responseHeader resp ++ resp.body

/-- `http_server_send_response`; `send_response_bytes` is the loop of `sendAll`. -/
def httpServerSendResponse (resp : HttpResponse) (s : Sender UInt8) : Sender UInt8 :=
  if (responseHeader resp).length ≥ 1024 then s
  else
    match sendAll (responseHeader resp) s with
    | (false, s) => s
    | (true, s) => if resp.bodyLen > 0 then (sendAll resp.body s).2 else s

/-- A response that is made of a text and its length. -/
structure HttpResponse.Framed (resp : HttpResponse) : Prop where
  bodyLen : resp.bodyLen = resp.body.length
  length_lt : resp.body.length < 2 ^ 64
  statusCode : 100 ≤ resp.statusCode ∧ resp.statusCode < 1000
  contentType : CR ∉ resp.contentType ∧ 0 ∉ resp.contentType ∧ resp.contentType.length < 128
  contentType_plain : resp.contentType.head? ≠ some (chr ' ') ∧
    ¬lit "Content-Length:" <:+: lit "Content-Type: " ++ resp.contentType

variable {resp : HttpResponse} {s : Sender UInt8}

/-! ## What is sent -/

/-- A client receives the start of the response, and all of it if the network takes something in
    each call. -/
theorem httpServerSendResponse_sent (hheader : (responseHeader resp).length < 1024)
    (hbody : resp.bodyLen = resp.body.length) (s : Sender UInt8) :
    ∃ n, (httpServerSendResponse resp s).sent = s.sent ++ resp.wire.take n ∧
      (s.Takes → (httpServerSendResponse resp s).sent = s.sent ++ resp.wire) := by
  obtain ⟨n, -, hsent, hall⟩ := sendAll_append (responseHeader resp) resp.body s
  have heq : (httpServerSendResponse resp s).sent =
      (if (sendAll (responseHeader resp) s).1 then
        sendAll resp.body (sendAll (responseHeader resp) s).2
      else sendAll (responseHeader resp) s).2.sent := by
    rw [httpServerSendResponse, if_neg (not_le.2 hheader)]
    generalize sendAll (responseHeader resp) s = sent
    obtain ⟨ok, s'⟩ := sent
    cases ok with
    | false => rfl
    | true =>
      dsimp only
      split
      case isTrue => rfl
      case isFalse hzero =>
        have hnil : resp.body = [] := List.eq_nil_of_length_eq_zero (by omega)
        rw [hnil, if_pos rfl]
        rfl
  rw [heq, hsent]
  refine ⟨n, rfl, fun htakes => ?_⟩
  rw [hall htakes, ← List.length_append, List.take_length, HttpResponse.wire]

/-! ## What is read of it -/

/-- How a client reads a response: the status of the first line, and the type and the length of the
    body from the header. -/
def readResponse (stream : Bytes) : Option (ℕ × Bytes × Bytes) := do
  let endLine ← search (lit "\r\n") stream
  let headers := stream.drop (endLine + 2)
  let blank ← search (lit "\r\n\r\n") headers
  let header := headers.take (blank + 4)
  let type ← headerValue (lit "Content-Type:") (lit "Content-Type:") header
  let length ← headerValue (lit "Content-Length:") (lit "Content-Length:") header
  let body := headers.drop (blank + 4)
  if value (length.takeWhile isDigit) ≤ body.length then
    return (value ((stream.drop 9).takeWhile isDigit),
      type.take ((search (lit "\r\n") type).getD type.length),
      body.take (value (length.takeWhile isDigit)))
  else none

theorem not_mem_print {n : ℕ} {b : UInt8} (hb : ¬isDigit b) : b ∉ print n :=
  fun h => hb (isDigit_of_mem_print h)

theorem linesText_cons (line : Bytes) (lines : List Bytes) :
    linesText (line :: lines) = line ++ (lit "\r\n" ++ linesText lines) := by
  rw [linesText, List.flatMap_cons, List.append_assoc]
  rfl

section Header

variable (h : resp.Framed)
include h

omit h in
theorem not_mem_statusLine (resp : HttpResponse) : CR ∉ statusLine resp := by
  have hcr : ¬isDigit CR := by decide
  have hspace : CR ≠ chr ' ' := by decide
  have hversion : CR ∉ lit "HTTP/1.1 " := by decide
  have hreason : CR ∉ reasonPhrase resp.statusCode := by
    rw [reasonPhrase]
    split_ifs <;> decide
  rw [statusLine, List.mem_append, List.mem_append, List.mem_cons]
  exact not_or.2 ⟨not_or.2 ⟨hversion, not_mem_print hcr⟩, not_or.2 ⟨hspace, hreason⟩⟩

omit h in
theorem responseFields_ne_nil (resp : HttpResponse) : responseFields resp ≠ [] := by
  rw [responseFields]
  exact List.cons_ne_nil _ _

theorem responseFields_plain : ∀ line ∈ responseFields resp, line ≠ [] ∧ CR ∉ line := by
  obtain ⟨htype, htype', -⟩ := h.contentType
  have hcr : ¬isDigit CR := by decide
  have hnames : CR ∉ lit "Content-Type: " ∧ CR ∉ lit "Content-Length: " := by decide
  rw [responseFields, cstr_of_not_mem htype']
  refine List.forall_mem_cons.2 ⟨⟨?_, ?_⟩, List.forall_mem_cons.2 ⟨⟨?_, ?_⟩, by decide⟩⟩
  · exact List.append_ne_nil_of_left_ne_nil (by decide) _
  · exact fun h => (List.mem_append.1 h).elim hnames.1 htype
  · exact List.append_ne_nil_of_left_ne_nil (by decide) _
  · exact fun h => (List.mem_append.1 h).elim hnames.2 (not_mem_print hcr)

/-- The header fits its buffer. -/
theorem length_responseHeader_lt : (responseHeader resp).length < 1024 := by
  obtain ⟨-, htype', htype⟩ := h.contentType
  have hstatus : (print resp.statusCode).length ≤ 3 := length_print_le (by decide) h.statusCode.2
  have hlength : (print resp.bodyLen).length ≤ 20 := by
    refine length_print_le (by decide) ?_
    have := h.length_lt
    rw [h.bodyLen]
    omega
  have hreason : (reasonPhrase resp.statusCode).length ≤ 11 := by
    rw [reasonPhrase]
    split_ifs <;> decide
  have htwo : (lit "\r\n").length = 2 := rfl
  have h₁ : (lit "HTTP/1.1 ").length = 9 := rfl
  have h₂ : (lit "Content-Type: ").length = 14 := rfl
  have h₃ : (lit "Content-Length: ").length = 16 := rfl
  have h₄ : (linesText [lit "Connection: close", lit "Access-Control-Allow-Origin: *",
    lit "Cache-Control: no-cache"]).length = 76 := rfl
  rw [responseHeader, statusLine, responseFields, cstr_of_not_mem htype', linesText_cons,
    linesText_cons]
  simp only [List.length_append, List.length_cons, htwo, h₁, h₂, h₃, h₄]
  omega

omit h in
theorem wire_append (resp : HttpResponse) (rest : Bytes) : resp.wire ++ rest = statusLine resp ++
    (lit "\r\n" ++ (linesText (responseFields resp) ++ (lit "\r\n" ++ (resp.body ++ rest)))) := by
  simp only [HttpResponse.wire, responseHeader, List.append_assoc]

omit h in
theorem search_statusLine (resp : HttpResponse) (rest : Bytes) :
    search (lit "\r\n") (resp.wire ++ rest) = some (statusLine resp).length := by
  rw [wire_append]
  refine search_of_not_mem (k := 0) (c := CR) rfl ?_
  rw [List.take_zero, List.append_nil]
  exact not_mem_statusLine resp

omit h in
theorem drop_statusLine (resp : HttpResponse) (rest : Bytes) :
    (resp.wire ++ rest).drop ((statusLine resp).length + 2) =
      linesText (responseFields resp) ++ (lit "\r\n" ++ (resp.body ++ rest)) := by
  have hlen : (statusLine resp ++ lit "\r\n").length = (statusLine resp).length + 2 :=
    List.length_append
  rw [wire_append, ← List.append_assoc, ← hlen, List.drop_left]

theorem search_responseFields (tail : Bytes) : search (lit "\r\n\r\n")
    (linesText (responseFields resp) ++ (lit "\r\n" ++ tail)) =
      some ((linesText (responseFields resp)).length - 2) :=
  search_linesText (List.cons_ne_nil _ _) (responseFields_plain h) tail

omit h in
theorem length_wire (resp : HttpResponse) : resp.wire.length = (statusLine resp).length + 2 +
    (linesText (responseFields resp)).length + 2 + resp.body.length := by
  have htwo : (lit "\r\n").length = 2 := rfl
  simp only [HttpResponse.wire, responseHeader, List.length_append, htwo]

end Header

/-- Digits are read up to the first character that is none. -/
theorem takeWhile_print {rest : Bytes} {n : ℕ} (hrest : ∀ b ∈ rest.head?, ¬isDigit b) :
    (print n ++ rest).takeWhile isDigit = print n := by
  rw [List.takeWhile_append_of_pos fun b => isDigit_of_mem_print]
  cases rest with
  | nil => simp
  | cons b rest => rw [List.takeWhile_cons_of_neg (hrest b rfl), List.append_nil]

/-- The value of a field is what comes after its name and a space. -/
theorem headerValue_linesText (pre : List Bytes) {post : List Bytes} {name v : Bytes}
    (hname : name ≠ []) (hcr : CR ∉ name) (hlf : LF ∉ name) (hpre : ∀ line ∈ pre, ¬name <:+: line)
    (hv : v.head? ≠ some (chr ' ')) (rest : Bytes) :
    headerValue name name (linesText (pre ++ (name ++ chr ' ' :: v) :: post) ++ rest) =
      some (v ++ (lit "\r\n" ++ (linesText post ++ rest))) := by
  have hskip (x : Bytes) : (chr ' ' :: v ++ (lit "\r\n" ++ x)).dropWhile (· = chr ' ') =
      v ++ (lit "\r\n" ++ x) := by
    cases v with
    | nil => rfl
    | cons c v =>
      have hc : c ≠ chr ' ' := fun h => hv (h ▸ rfl)
      simp [hc]
  rw [headerValue, searchFrom_linesText hname hcr hlf hpre, Option.some_or, Option.map_some,
    List.drop_left, hskip]

/-- A client gets back what the response was made of, whatever comes after it. -/
theorem readResponse_wire (h : resp.Framed) (rest : Bytes) :
    readResponse (resp.wire ++ rest) = some (resp.statusCode, resp.contentType, resp.body) := by
  obtain ⟨htype, htype', -⟩ := h.contentType
  obtain ⟨hspace, hother⟩ := h.contentType_plain
  have hlen := length_linesText (responseFields_ne_nil resp)
  have hheader (tail : Bytes) : (linesText (responseFields resp) ++ (lit "\r\n" ++ tail)).take
      ((linesText (responseFields resp)).length - 2 + 4) =
        linesText (responseFields resp) ++ lit "\r\n" := by
    rw [hlen, ← List.append_assoc, List.take_left]
  have hbody (tail : Bytes) : (linesText (responseFields resp) ++ (lit "\r\n" ++ tail)).drop
      ((linesText (responseFields resp)).length - 2 + 4) = tail := by
    rw [hlen, ← List.append_assoc, List.drop_left]
  -- the fields that are looked up
  obtain ⟨post, hpost⟩ : ∃ post, post = [lit "Connection: close",
      lit "Access-Control-Allow-Origin: *", lit "Cache-Control: no-cache"] := ⟨_, rfl⟩
  have hfields : responseFields resp = (lit "Content-Type:" ++ chr ' ' :: resp.contentType) ::
      (lit "Content-Length:" ++ chr ' ' :: print resp.bodyLen) :: post := by
    rw [responseFields, cstr_of_not_mem htype', hpost]
    rfl
  have htypeValue : headerValue (lit "Content-Type:") (lit "Content-Type:")
      (linesText (responseFields resp) ++ lit "\r\n") = some (resp.contentType ++ (lit "\r\n" ++
        (linesText ((lit "Content-Length:" ++ chr ' ' :: print resp.bodyLen) :: post) ++
          lit "\r\n"))) := by
    rw [hfields]
    exact headerValue_linesText [] (by decide) (by decide) (by decide)
      (List.forall_mem_nil _) hspace _
  have hlengthValue : headerValue (lit "Content-Length:") (lit "Content-Length:")
      (linesText (responseFields resp) ++ lit "\r\n") =
        some (print resp.bodyLen ++ (lit "\r\n" ++ (linesText post ++ lit "\r\n"))) := by
    rw [hfields]
    refine headerValue_linesText [_] (by decide) (by decide) (by decide)
      (List.forall_mem_singleton.2 hother) (fun hdigit => ?_) _
    have hspace' : isDigit (chr ' ') := isDigit_of_mem_print (List.mem_of_mem_head? hdigit)
    revert hspace'
    decide
  have htypeEnd (x : Bytes) : search (lit "\r\n") (resp.contentType ++ (lit "\r\n" ++ x)) =
      some resp.contentType.length := by
    refine search_of_not_mem (k := 0) (c := CR) rfl ?_
    rw [List.take_zero, List.append_nil]
    exact htype
  have hdigits (x : Bytes) : (print resp.bodyLen ++ (lit "\r\n" ++ x)).takeWhile isDigit =
      print resp.bodyLen := takeWhile_print fun b hb => by
    obtain rfl := Option.some.inj hb
    decide
  have hcode : ((resp.wire ++ rest).drop 9).takeWhile isDigit = print resp.statusCode := by
    rw [wire_append, statusLine, List.append_assoc, List.append_assoc]
    refine takeWhile_print fun b hb => ?_
    obtain rfl := Option.some.inj hb
    decide
  rw [readResponse]
  simp only [Option.bind_eq_bind, search_statusLine resp, Option.bind_some, drop_statusLine,
    search_responseFields h, hheader, hbody, htypeValue, hlengthValue, hdigits, value_print, hcode,
    htypeEnd, Option.getD_some, List.take_left]
  rw [h.bodyLen, if_pos (by rw [List.length_append]; omega), List.take_left]
  rfl

/-- A response that is cut off is not taken for a whole one. -/
theorem readResponse_take (h : resp.Framed) {n : ℕ} (hn : n < resp.wire.length) :
    readResponse (resp.wire.take n) = none := by
  rw [Option.eq_none_iff_forall_ne_some]
  intro result hresult
  have hwhole := readResponse_wire h []
  rw [List.append_nil] at hwhole
  have hpart := List.take_prefix n resp.wire
  have hlength : (resp.wire.take n).length = n := by rw [List.length_take, Nat.min_eq_left hn.le]
  generalize resp.wire.take n = part at hpart hresult hlength
  rw [readResponse] at hresult hwhole
  simp only [Option.bind_eq_bind] at hresult hwhole
  have hstatus := search_statusLine resp []
  have hfields := search_responseFields h (resp.body ++ [])
  rw [← drop_statusLine, List.append_nil] at hfields
  rw [List.append_nil] at hstatus
  obtain ⟨endLine, hline, hresult⟩ := Option.bind_eq_some_iff.1 hresult
  obtain ⟨blank, hblank, hresult⟩ := Option.bind_eq_some_iff.1 hresult
  have hheaders := hpart.drop (endLine + 2)
  have hend := add_length_le (by decide) hblank
  have hfour : (lit "\r\n\r\n").length = 4 := rfl
  rw [hfour] at hend
  -- what is found in the part is found in the whole, and the header is the same
  obtain rfl := Option.some.inj (hstatus.symm.trans (search_of_isPrefix (by decide) hpart hline))
  obtain rfl := Option.some.inj (hfields.symm.trans
    (search_of_isPrefix (by decide) hheaders hblank))
  rw [hstatus, Option.bind_some, hfields, Option.bind_some] at hwhole
  have hheader : (part.drop ((statusLine resp).length + 2)).take
      ((linesText (responseFields resp)).length - 2 + 4) =
        (resp.wire.drop ((statusLine resp).length + 2)).take
          ((linesText (responseFields resp)).length - 2 + 4) := by
    obtain ⟨rest, hrest⟩ := hheaders
    rw [← hrest, List.take_append_of_le_length hend]
  rw [hheader] at hresult
  obtain ⟨type, htype, hresult⟩ := Option.bind_eq_some_iff.1 hresult
  obtain ⟨length, hlen, hresult⟩ := Option.bind_eq_some_iff.1 hresult
  rw [htype, Option.bind_some, hlen, Option.bind_some] at hwhole
  split at hwhole
  case isFalse => cases hwhole
  case isTrue hle =>
    -- the length that is declared is that of the body, which is not all there
    have hbody := congrArg (fun r : ℕ × Bytes × Bytes => r.2.2.length) (Option.some.inj hwhole)
    dsimp only at hbody
    rw [List.length_take, Nat.min_eq_left hle] at hbody
    have hfieldsLen := length_linesText (responseFields_ne_nil resp)
    have hsplit := length_wire resp
    rw [List.length_append] at hfieldsLen
    have htwo : (lit "\r\n").length = 2 := rfl
    split at hresult
    case isFalse => cases hresult
    case isTrue hle' =>
      rw [List.length_drop] at hend
      rw [List.length_drop, List.length_drop] at hle'
      omega

/-- What a client makes of what it receives: the response, if the network takes all of it, and
    otherwise nothing. -/
theorem readResponse_sent (h : resp.Framed) (hs : s.sent = []) :
    readResponse (httpServerSendResponse resp s).sent =
        some (resp.statusCode, resp.contentType, resp.body) ∨
      readResponse (httpServerSendResponse resp s).sent = none ∧ ¬s.Takes := by
  obtain ⟨n, hsent, hall⟩ := httpServerSendResponse_sent (length_responseHeader_lt h) h.bodyLen s
  have hwhole := readResponse_wire h []
  rw [List.append_nil] at hwhole
  rw [hs, List.nil_append] at hsent hall
  rcases lt_or_ge n resp.wire.length with hlt | hle
  · refine .inr ⟨by rw [hsent, readResponse_take h hlt], fun htakes => ?_⟩
    have hlength := congrArg List.length ((hall htakes).symm.trans hsent)
    rw [List.length_take] at hlength
    omega
  · rw [hsent, List.take_of_length_le hle]
    exact .inl hwhole

/-- The response where no handler is found. -/
def notFound : HttpResponse where
  statusCode := 404
  contentType := lit "text/plain"
  body := lit "404 Not Found"
  bodyLen := 13

/-- A network that takes seven bytes a call, or fails at a call. -/
def bySevens (failing : Option ℕ) : Sender UInt8 where
  sent := []
  room k := if failing = some k then none else some 7
  calls := 0

end PS5Torrent
