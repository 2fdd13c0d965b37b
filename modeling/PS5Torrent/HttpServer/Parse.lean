import PS5Torrent.HttpServer.Multipart
import PS5Torrent.HttpServer.Request
import PS5Torrent.Library.Decimal
import PS5Torrent.Library.ReceiveLoop

/-!
# Reading requests

`parse_http_request`: the head of a request must come with the first receive,
the body is read as it comes. A request of a client (`ClientRequest`) is
understood exactly if its head comes with the first receive
(`parseHttpRequest_iff`), however the rest is cut into segments. What is taken
for the body is in any case what follows the first blank line, and it is
shorter than declared only if the stream ends (`parseHttpRequest_body`).
-/

namespace PS5Torrent

open Search Decimal Receiver

/-! ## The parser -/

/-- The first word of a line, and what comes after the space behind it. -/
def strtok (s : Bytes) : Option (Bytes × Bytes) :=
  let s := s.dropWhile (· = chr ' ')
  if s = [] then none
  else some (s.takeWhile (· ≠ chr ' '), (s.dropWhile (· ≠ chr ' ')).tail)

def HttpMethod.ofName (name : Bytes) : HttpMethod :=
  if name = lit "GET" then .get else if name = lit "POST" then .post else .unsupported

/-- The method, the path and the query of a request line. -/
def parseRequestLine (line : Bytes) : Option (HttpMethod × Bytes × Bytes) := do
  let (method, rest) ← strtok line
  let (target, _) ← strtok rest
  let path := target.takeWhile (· ≠ chr '?')
  let query := (target.dropWhile (· ≠ chr '?')).tail
  return (.ofName method, httpUrlDecode (path.take (1024 - 1)), query.take (2048 - 1))

/-- What comes after a name and spaces, from the first place where it is found. -/
def headerValue (name lowerName headers : Bytes) : Option Bytes :=
  ((searchFrom name headers).or (searchFrom lowerName headers)).map fun field =>
    (field.drop name.length).dropWhile (· = chr ' ')

/-- The digits of a length, read into a `size_t`. -/
def readSize (digits : Bytes) : ℕ := digits.foldl (fun n c => toSize (n * 10 + digitVal c)) 0

def contentLength (headers : Bytes) : Option ℕ :=
  (headerValue (lit "Content-Length:") (lit "content-length:") headers).map fun value =>
    min (readSize (value.takeWhile isDigit)) HTTP_MAX_BODY

def contentType (headers : Bytes) : Bytes :=
  match headerValue (lit "Content-Type:") (lit "content-type:") headers with
  | none => []
  | some value => (value.take ((search (lit "\r\n") value).getD value.length)).take (128 - 1)

/-- The body of the declared length, of which a part has arrived. -/
def readContent (clen : ℕ) (arrived : Bytes) (r : Receiver UInt8) : Bytes × Receiver UInt8 :=
  let body := arrived.take clen
  match recvUpTo (clen - body.length) (clen - body.length) r with
  | (rest, r) => (body ++ rest, r)

def parseHttpRequest (r : Receiver UInt8) : Option HttpRequest × Receiver UInt8 :=
  match recvSome (8192 - 1) r with
  | (buf, r) =>
    if buf = [] then (none, r)
    else
      let text := cstr buf
      match search (lit "\r\n") text with
      | none => (none, r)
      | some endLine =>
        match parseRequestLine (text.take endLine) with
        | none => (none, r)
        | some (method, path, query) =>
          let headers := text.drop (endLine + 2)
          match search (lit "\r\n\r\n") headers with
          | none => (some ⟨method, path, query, none, []⟩, r)
          | some blank =>
            match contentLength headers with
            | none => (some ⟨method, path, query, none, contentType headers⟩, r)
            | some clen =>
              match readContent clen (buf.drop (endLine + 2 + blank + 4)) r with
              | (body, r) => (some ⟨method, path, query, some body, contentType headers⟩, r)

/-! ## Receiving -/

variable {r : Receiver UInt8}

/-- How much comes with the first receive. -/
def firstSegment (r : Receiver UInt8) : ℕ := (recvSome (8192 - 1) r).1.length

/-- A body of which a part has arrived is what follows in the stream, as far as it goes. -/
theorem readContent_eq (clen : ℕ) {u arrived : Bytes} {n k : ℕ} (harrived : arrived = (u.take n).drop k)
    (hk : k ≤ n) (hn : n ≤ u.length) (hr : r.unread = u.drop n) :
    ∃ r', readContent clen arrived r = ((u.drop k).take clen, r') := by
  have hlength : (arrived.take clen).length = min clen (n - k) := by
    rw [harrived, List.length_take, List.length_drop, List.length_take, Nat.min_eq_left hn]
  obtain ⟨r', hbody, -⟩ := recvUpTo_eq (le_refl (clen - min clen (n - k))) r
  refine ⟨r', ?_⟩
  rw [readContent]
  dsimp only
  rw [hlength, hbody, hr, harrived]
  dsimp only
  congr 1
  -- the part that has arrived, and the part behind it
  have hsplit : (u.take n).drop k = (u.drop k).take (n - k) := List.drop_take
  have hrest : u.drop n = (u.drop k).drop (n - k) := by rw [List.drop_drop, Nat.add_sub_cancel' hk]
  rw [hsplit, hrest, List.take_take]
  rcases Nat.le_total clen (n - k) with h | h
  · rw [Nat.min_eq_left h, Nat.sub_self, List.take_zero, List.append_nil]
  · rw [Nat.min_eq_right h, ← List.take_add, Nat.add_sub_cancel' h]

/-! ## What is read -/

/-- What a request in a stream is read as, if a part of the stream comes first. -/
def requestIn (buf stream : Bytes) : Option HttpRequest := do
  let text := cstr buf
  let endLine ← search (lit "\r\n") text
  let (method, path, query) ← parseRequestLine (text.take endLine)
  let headers := text.drop (endLine + 2)
  match search (lit "\r\n\r\n") headers with
  | none => return ⟨method, path, query, none, []⟩
  | some blank =>
    return ⟨method, path, query,
      (contentLength headers).map ((stream.drop (endLine + 2 + blank + 4)).take ·),
      contentType headers⟩

/-- Only the first receive matters: after it, the stream is read as if it came at once. -/
theorem parseHttpRequest_eq (r : Receiver UInt8) :
    (parseHttpRequest r).1 = requestIn (r.unread.take (firstSegment r)) r.unread := by
  obtain ⟨n, r₁, hrecv, hafter, -, hn, -⟩ := recvSome_eq (by decide : 0 < 8192 - 1) r
  have hfirst : firstSegment r = n := by
    rw [firstSegment, hrecv, List.length_take, Nat.min_eq_left hn]
  rw [hfirst, parseHttpRequest, hrecv]
  dsimp only
  split
  case isTrue hnil => rw [hnil]; rfl
  case isFalse =>
    rw [requestIn]
    cases hline : search (lit "\r\n") (cstr (r.unread.take n)) with
    | none => rfl
    | some endLine =>
      simp only [Option.bind_eq_bind, Option.bind_some]
      cases parseRequestLine ((cstr (r.unread.take n)).take endLine) with
      | none => rfl
      | some line =>
        obtain ⟨method, path, query⟩ := line
        simp only [Option.bind_some]
        cases hblank : search (lit "\r\n\r\n") ((cstr (r.unread.take n)).drop (endLine + 2)) with
        | none => rfl
        | some blank =>
          dsimp only
          cases contentLength ((cstr (r.unread.take n)).drop (endLine + 2)) with
          | none => rfl
          | some clen =>
            have hend := add_length_le (by decide) hblank
            have hlength : (lit "\r\n\r\n").length = 4 := rfl
            have htext := length_cstr_le (r.unread.take n)
            rw [List.length_drop] at hend
            rw [List.length_take, Nat.min_eq_left hn] at htext
            obtain ⟨r₂, hcontent⟩ := readContent_eq clen (k := endLine + 2 + blank + 4) rfl
              (by omega) hn hafter.unread
            dsimp only
            rw [hcontent]
            rfl

theorem length_urlDecode_le (str : Bytes) : (urlDecode str).length ≤ str.length := by
  induction str using urlDecode.induct with
  | case1 => exact le_rfl
  | case2 a b src ih =>
    rw [urlDecode, if_pos rfl]
    exact Nat.succ_le_succ (ih.trans (Nat.le_add_right _ 2))
  | case3 a b src hne ih =>
    rw [urlDecode, if_neg hne, if_pos rfl]
    exact Nat.succ_le_succ ih
  | case4 c a b src hpercent hplus ih =>
    rw [urlDecode, if_neg hpercent, if_neg hplus]
    exact Nat.succ_le_succ ih
  | case5 c src hshort ih =>
    rw [urlDecode]
    · exact Nat.succ_le_succ ih
    · exact hshort

theorem length_httpUrlDecode_le (str : Bytes) : (httpUrlDecode str).length ≤ str.length :=
  (length_cstr_le _).trans ((length_urlDecode_le _).trans (length_cstr_le _))

theorem length_parseRequestLine {line : Bytes} {method : HttpMethod} {path query : Bytes}
    (h : parseRequestLine line = some (method, path, query)) :
    path.length < 1024 ∧ query.length < 2048 := by
  obtain ⟨⟨name, rest⟩, -, h⟩ := Option.bind_eq_some_iff.1 h
  obtain ⟨⟨target, rest'⟩, -, h⟩ := Option.bind_eq_some_iff.1 h
  obtain ⟨-, h⟩ := Prod.mk.inj (Option.some.inj h)
  obtain ⟨hpath, hquery⟩ := Prod.mk.inj h
  have hdecode := length_httpUrlDecode_le ((target.takeWhile (· ≠ chr '?')).take (1024 - 1))
  rw [List.length_take] at hdecode
  refine ⟨?_, ?_⟩
  · rw [← hpath]
    omega
  · rw [← hquery, List.length_take]
    omega

theorem contentLength_le {headers : Bytes} {clen : ℕ} (h : contentLength headers = some clen) :
    clen ≤ HTTP_MAX_BODY := by
  obtain ⟨value, -, rfl⟩ := Option.map_eq_some_iff.1 h
  exact min_le_right _ _

theorem length_contentType_lt (headers : Bytes) : (contentType headers).length < 128 := by
  rw [contentType]
  split
  · decide
  · rw [List.length_take]
    omega

/-- A body is no longer than the limit. -/
theorem length_body_le {req : HttpRequest} (h : (parseHttpRequest r).1 = some req) :
    ∀ body ∈ req.body, body.length ≤ HTTP_MAX_BODY := by
  intro body hbody
  rw [parseHttpRequest_eq, requestIn] at h
  obtain ⟨endLine, -, h⟩ := Option.bind_eq_some_iff.1 h
  obtain ⟨⟨method, path, query⟩, -, h⟩ := Option.bind_eq_some_iff.1 h
  dsimp only at h
  split at h
  case h_1 =>
    obtain rfl := Option.some.inj h
    cases hbody
  case h_2 =>
    obtain rfl := Option.some.inj h
    obtain ⟨clen, hclen, rfl⟩ := Option.map_eq_some_iff.1 hbody
    exact (List.length_take_le _ _).trans (contentLength_le hclen)

/-- What is kept of a request fits its buffers. Its body is what follows a blank line in the
    stream, of the declared length, up to the limit, or up to the end of the stream. -/
theorem parseHttpRequest_body {req : HttpRequest} (h : (parseHttpRequest r).1 = some req) :
    req.path.length < 1024 ∧ req.query.length < 2048 ∧ req.contentType.length < 128 ∧
      ∀ body, req.body = some body → ∃ start clen, clen ≤ HTTP_MAX_BODY ∧
        lit "\r\n\r\n" <:+ r.unread.take start ∧ body = (r.unread.drop start).take clen := by
  rw [parseHttpRequest_eq, requestIn] at h
  obtain ⟨endLine, hline, h⟩ := Option.bind_eq_some_iff.1 h
  obtain ⟨⟨method, path, query⟩, hrequest, h⟩ := Option.bind_eq_some_iff.1 h
  obtain ⟨hpath, hquery⟩ := length_parseRequestLine hrequest
  dsimp only at h
  split at h
  case h_1 =>
    obtain rfl := Option.some.inj h
    exact ⟨hpath, hquery, Nat.succ_pos 127, fun body hbody => nomatch hbody⟩
  case h_2 blank hblank =>
    obtain rfl := Option.some.inj h
    refine ⟨hpath, hquery, length_contentType_lt _, fun body hbody => ?_⟩
    obtain ⟨clen, hclen, rfl⟩ := Option.map_eq_some_iff.1 hbody
    refine ⟨endLine + 2 + blank + 4, clen, contentLength_le hclen, ?_, rfl⟩
    -- the blank line in the text is one in the stream
    have hfound := prefix_of_search hblank
    rw [List.drop_drop] at hfound
    have htext : cstr (r.unread.take (firstSegment r)) <+: r.unread :=
      (List.takeWhile_prefix _).trans (List.take_prefix _ _)
    obtain ⟨rest, hrest⟩ := hfound.trans (htext.drop _)
    refine ⟨r.unread.take (endLine + 2 + blank), ?_⟩
    rw [List.take_add (i := endLine + 2 + blank), ← hrest]
    rfl

/-! ## Requests of clients -/

/-- A request as a client sends it: the lines of the header, among them the
    length of the body and its type. -/
structure ClientRequest where
  method : Bytes
  target : Bytes
  lines : List Bytes
  type : Bytes
  body : Bytes
  method_plain : method ≠ [] ∧ chr ' ' ∉ method ∧ CR ∉ method ∧ 0 ∉ method
  target_plain : target ≠ [] ∧ chr ' ' ∉ target ∧ CR ∉ target ∧ 0 ∉ target
  lines_plain : ∀ line ∈ lines, line ≠ [] ∧ CR ∉ line ∧ 0 ∉ line
  length_line : ∃ pre post, lines = pre ++ (lit "Content-Length: " ++ print body.length) :: post ∧
    ∀ line ∈ pre, ¬lit "Content-Length:" <:+: line
  type_line : ∃ pre post, lines = pre ++ (lit "Content-Type: " ++ type) :: post ∧
    ∀ line ∈ pre, ¬lit "Content-Type:" <:+: line
  type_plain : type.head? ≠ some (chr ' ')
  length_lt : body.length < 2 ^ 64

/-- Lines, each with its end. -/
def linesText (lines : List Bytes) : Bytes := lines.flatMap (· ++ lit "\r\n")

namespace ClientRequest

def requestLine (f : ClientRequest) : Bytes := f.method ++ chr ' ' :: f.target ++ lit " HTTP/1.1"

def head (f : ClientRequest) : Bytes :=
  f.requestLine ++ lit "\r\n" ++ linesText f.lines ++ lit "\r\n"

def encode (f : ClientRequest) : Bytes := f.head ++ f.body

/-- What the request is to be read as. -/
def parsed (f : ClientRequest) : HttpRequest where
  method := .ofName f.method
  path := httpUrlDecode ((f.target.takeWhile (· ≠ chr '?')).take 1023)
  query := (f.target.dropWhile (· ≠ chr '?')).tail.take 2047
  body := some (f.body.take HTTP_MAX_BODY)
  contentType := f.type.take 127

end ClientRequest

section Lines

variable {lines pre post : List Bytes} {w v tail : Bytes}

/-- The end of a line starts no blank line, unless another one follows. -/
theorem search_blank_crlf {rest : Bytes} (hrest : rest.head? ≠ some CR) :
    search (lit "\r\n\r\n") (lit "\r\n" ++ rest) =
      (search (lit "\r\n\r\n") rest).map (· + 2) := by
  have hfirst : ¬lit "\r\n\r\n" <+: CR :: LF :: rest := by
    rintro ⟨z, hz⟩
    obtain ⟨-, hz⟩ := List.cons.inj hz
    obtain ⟨-, hz⟩ := List.cons.inj hz
    exact hrest (by rw [← hz]; rfl)
  have hsecond : ¬lit "\r\n\r\n" <+: LF :: rest := by
    rintro ⟨z, hz⟩
    exact absurd (List.cons.inj hz).1 (by decide)
  have htext : lit "\r\n" ++ rest = CR :: LF :: rest := rfl
  rw [htext, search_cons hfirst, search_cons hsecond, Option.map_map]
  rfl

/-- Where the lines and the blank line end. -/
theorem length_linesText (hne : lines ≠ []) :
    (linesText lines).length - 2 + 4 = (linesText lines ++ lit "\r\n").length := by
  obtain ⟨line, lines', rfl⟩ := List.exists_cons_of_ne_nil hne
  have htwo : (lit "\r\n").length = 2 := rfl
  simp only [linesText, List.flatMap_cons, List.length_append, htwo]
  omega

/-- The blank line is found behind the last line. -/
theorem search_linesText (hne : lines ≠ []) (hlines : ∀ line ∈ lines, line ≠ [] ∧ CR ∉ line)
    (tail : Bytes) : search (lit "\r\n\r\n") (linesText lines ++ (lit "\r\n" ++ tail)) =
      some ((linesText lines).length - 2) := by
  have hskip {line rest : Bytes} (hline : CR ∉ line) : search (lit "\r\n\r\n") (line ++ rest) =
      (search (lit "\r\n\r\n") rest).map (· + line.length) := search_skip rfl hline
  have htwo : (lit "\r\n").length = 2 := rfl
  have hcons (line : Bytes) (lines : List Bytes) :
      linesText (line :: lines) = line ++ (lit "\r\n" ++ linesText lines) := by
    rw [linesText, List.flatMap_cons, List.append_assoc]
    rfl
  induction lines with
  | nil => exact absurd rfl hne
  | cons line lines ih =>
    obtain ⟨⟨-, hline⟩, hrest⟩ := List.forall_mem_cons.1 hlines
    rw [hcons, List.append_assoc, hskip hline, List.append_assoc]
    cases lines with
    | nil =>
      have hfound : lit "\r\n\r\n" <+: lit "\r\n" ++ (linesText [] ++ (lit "\r\n" ++ tail)) :=
        ⟨tail, rfl⟩
      rw [search_eq_zero hfound, Option.map_some, List.length_append, List.length_append, htwo]
      exact congrArg some (by simp [linesText])
    | cons line' lines =>
      obtain ⟨⟨hne', hline'⟩, -⟩ := List.forall_mem_cons.1 hrest
      have hhead : (linesText (line' :: lines) ++ (lit "\r\n" ++ tail)).head? ≠ some CR := by
        obtain ⟨c, line', rfl⟩ := List.exists_cons_of_ne_nil hne'
        intro h
        exact hline' (Option.some.inj h ▸ List.mem_cons_self)
      have hlen : 2 ≤ (linesText (line' :: lines)).length := by
        rw [hcons, List.length_append, List.length_append]
        omega
      rw [search_blank_crlf hhead, ih (List.cons_ne_nil _ _) hrest, Option.map_some,
        Option.map_some, List.length_append, List.length_append, htwo]
      congr 1
      omega

/-- What is in no line before is found at the start of its line. -/
theorem searchFrom_linesText (hw : w ≠ []) (hcr : CR ∉ w) (hlf : LF ∉ w)
    (hpre : ∀ line ∈ pre, ¬w <:+: line) (rest : Bytes) :
    searchFrom w (linesText (pre ++ (w ++ v) :: post) ++ rest) =
      some (w ++ (v ++ (lit "\r\n" ++ (linesText post ++ rest)))) := by
  induction pre with
  | nil =>
    have hfound : w <+: linesText ([] ++ (w ++ v) :: post) ++ rest := by
      rw [List.nil_append, linesText, List.flatMap_cons, List.append_assoc, List.append_assoc,
        List.append_assoc]
      exact List.prefix_append _ _
    rw [searchFrom, search_eq_zero hfound, Option.map_some, List.drop_zero, List.nil_append,
      linesText, List.flatMap_cons, List.append_assoc, List.append_assoc, List.append_assoc]
    rfl
  | cons line pre ih =>
    obtain ⟨hline, hpre⟩ := List.forall_mem_cons.1 hpre
    have htext : linesText (line :: pre ++ (w ++ v) :: post) ++ rest =
        line ++ CR :: ([] ++ LF :: (linesText (pre ++ (w ++ v) :: post) ++ rest)) := by
      rw [List.cons_append, linesText, List.flatMap_cons, List.append_assoc, List.append_assoc]
      rfl
    rw [htext, searchFrom_skip hw hcr (search_eq_none.2 hline), searchFrom_skip hw hlf
      (search_nil hw), ih hpre]

end Lines

/-- A word ends at the first space. -/
theorem strtok_append {word : Bytes} (hne : word ≠ []) (hword : chr ' ' ∉ word) (rest : Bytes) :
    strtok (word ++ chr ' ' :: rest) = some (word, rest) := by
  obtain ⟨c, word, rfl⟩ := List.exists_cons_of_ne_nil hne
  have hc : c ≠ chr ' ' := fun h => hword (h ▸ List.mem_cons_self)
  have hdrop : (c :: word ++ chr ' ' :: rest).dropWhile (· = chr ' ') =
      c :: word ++ chr ' ' :: rest := List.dropWhile_cons_of_neg (by simpa using hc)
  have htail : (c :: word ++ chr ' ' :: rest).dropWhile (· ≠ chr ' ') = chr ' ' :: rest := by
    rw [List.dropWhile_append_of_pos fun b hb => decide_eq_true (ne_of_mem_of_not_mem hb hword)]
    exact List.dropWhile_cons_of_neg (by simp)
  rw [strtok, hdrop, takeWhile_ne_append hword, htail]
  rfl

theorem readSize_print {n : ℕ} (hn : n < 2 ^ 64) : readSize (print n) = n := by
  have hfold (ds : Bytes) (n : ℕ) : ds.foldl (fun n c => toSize (n * 10 + digitVal c)) (n % 2 ^ 64) =
      ds.foldl (fun n c => n * 10 + digitVal c) n % 2 ^ 64 := by
    induction ds generalizing n with
    | nil => rfl
    | cons d ds ih =>
      rw [List.foldl_cons, List.foldl_cons, ← ih, toSize]
      congr 1
      omega
  have hvalue := hfold (print n) 0
  rw [Nat.zero_mod] at hvalue
  rw [readSize, hvalue, ← value, value_print, Nat.mod_eq_of_lt hn]

namespace ClientRequest

variable {f : ClientRequest} {tail : Bytes}

theorem lines_ne_nil (f : ClientRequest) : f.lines ≠ [] := by
  obtain ⟨pre, post, hlines, -⟩ := f.length_line
  rw [hlines]
  exact List.append_ne_nil_of_right_ne_nil _ (List.cons_ne_nil _ _)

theorem head_append (f : ClientRequest) (tail : Bytes) : f.head ++ tail =
    f.requestLine ++ (lit "\r\n" ++ (linesText f.lines ++ (lit "\r\n" ++ tail))) := by
  rw [head, List.append_assoc, List.append_assoc, List.append_assoc]

theorem not_mem_requestLine (f : ClientRequest) : CR ∉ f.requestLine ∧ 0 ∉ f.requestLine := by
  obtain ⟨-, -, hmethod, hmethod'⟩ := f.method_plain
  obtain ⟨-, -, htarget, htarget'⟩ := f.target_plain
  have hversion : CR ∉ lit " HTTP/1.1" ∧ 0 ∉ lit " HTTP/1.1" := by decide
  have hspace : CR ≠ chr ' ' ∧ (0 : UInt8) ≠ chr ' ' := by decide
  refine ⟨?_, ?_⟩
  · simp [requestLine, hmethod, htarget, hversion.1, hspace.1]
  · simp [requestLine, hmethod', htarget', hversion.2, hspace.2]

theorem not_mem_head (f : ClientRequest) : 0 ∉ f.head := by
  have hcrlf : 0 ∉ lit "\r\n" := by decide
  have hlines : 0 ∉ linesText f.lines := by
    intro h
    obtain ⟨line, hline, hmem⟩ := List.mem_flatMap.1 h
    rcases List.mem_append.1 hmem with hmem | hmem
    · exact (f.lines_plain line hline).2.2 hmem
    · exact hcrlf hmem
  simp [head, f.not_mem_requestLine.2, hcrlf, hlines]

/-- The words of the request line. -/
theorem parseRequestLine_requestLine (f : ClientRequest) : parseRequestLine f.requestLine =
    some (.ofName f.method, f.parsed.path, f.parsed.query) := by
  have hline : f.requestLine = f.method ++ chr ' ' :: (f.target ++ chr ' ' :: lit "HTTP/1.1") := by
    rw [requestLine, List.append_assoc]
    rfl
  rw [parseRequestLine, hline, strtok_append f.method_plain.1 f.method_plain.2.1,
    Option.bind_eq_bind, Option.bind_some]
  dsimp only
  rw [strtok_append f.target_plain.1 f.target_plain.2.1]
  rfl

theorem search_requestLine (f : ClientRequest) (tail : Bytes) :
    search (lit "\r\n") (f.head ++ tail) = some f.requestLine.length := by
  rw [head_append]
  refine search_of_not_mem (k := 0) (c := CR) rfl ?_
  rw [List.take_zero, List.append_nil]
  exact f.not_mem_requestLine.1

theorem drop_requestLine (f : ClientRequest) (tail : Bytes) : (f.head ++ tail).drop
    (f.requestLine.length + 2) = linesText f.lines ++ (lit "\r\n" ++ tail) := by
  have hlen : (f.requestLine ++ lit "\r\n").length = f.requestLine.length + 2 := by
    rw [List.length_append]
    rfl
  rw [head_append, ← List.append_assoc, ← hlen, List.drop_left]

theorem search_blank (f : ClientRequest) (tail : Bytes) : search (lit "\r\n\r\n")
    (linesText f.lines ++ (lit "\r\n" ++ tail)) = some ((linesText f.lines).length - 2) :=
  search_linesText f.lines_ne_nil (fun line hline =>
    ⟨(f.lines_plain line hline).1, (f.lines_plain line hline).2.1⟩) tail

theorem contentLength_eq (f : ClientRequest) (tail : Bytes) :
    contentLength (linesText f.lines ++ tail) = some (min f.body.length HTTP_MAX_BODY) := by
  obtain ⟨pre, post, hlines, hpre⟩ := f.length_line
  have hsplit : lit "Content-Length: " = lit "Content-Length:" ++ [chr ' '] := by decide
  rw [hsplit, List.append_assoc] at hlines
  obtain ⟨d, ds, hprint⟩ := List.exists_cons_of_ne_nil (print_ne_nil f.body.length)
  have hdigit : ∀ b ∈ print f.body.length, isDigit b := fun b => isDigit_of_mem_print
  rw [contentLength, headerValue, hlines,
    searchFrom_linesText (by decide) (by decide) (by decide) hpre, Option.some_or, Option.map_some,
    Option.map_some, List.drop_left]
  have hspace : d ≠ chr ' ' := by
    rintro rfl
    exact absurd (hdigit _ (hprint ▸ List.mem_cons_self)) (by decide)
  have hvalue (rest : Bytes) : (([chr ' '] ++ print f.body.length ++ rest).dropWhile
      (· = chr ' ')) = print f.body.length ++ rest := by
    rw [hprint]
    simp [hspace]
  have hcr : ¬isDigit CR := by decide
  rw [hvalue, List.takeWhile_append_of_pos hdigit]
  have hend (rest : Bytes) : (lit "\r\n" ++ rest).takeWhile isDigit = [] :=
    List.takeWhile_cons_of_neg hcr
  rw [hend, List.append_nil, readSize_print f.length_lt]

theorem contentType_eq (f : ClientRequest) (tail : Bytes) :
    contentType (linesText f.lines ++ tail) = f.type.take 127 := by
  obtain ⟨pre, post, hlines, hpre⟩ := f.type_line
  have hplain : CR ∉ f.type := by
    have hmem : lit "Content-Type: " ++ f.type ∈ f.lines := by
      rw [hlines]
      exact List.mem_append_right _ List.mem_cons_self
    exact fun h => (f.lines_plain _ hmem).2.1 (List.mem_append_right _ h)
  have hsplit : lit "Content-Type: " = lit "Content-Type:" ++ [chr ' '] := by decide
  rw [hsplit, List.append_assoc] at hlines
  rw [contentType, headerValue, hlines,
    searchFrom_linesText (by decide) (by decide) (by decide) hpre, Option.some_or, Option.map_some,
    List.drop_left]
  have hvalue (rest : Bytes) : (([chr ' '] ++ f.type ++ (lit "\r\n" ++ rest)).dropWhile
      (· = chr ' ')) = f.type ++ (lit "\r\n" ++ rest) := by
    have htype := f.type_plain
    cases htext : f.type with
    | nil => rfl
    | cons c type =>
      rw [htext] at htype
      have hc : c ≠ chr ' ' := fun h => htype (h ▸ rfl)
      simp [hc]
  have hend (rest : Bytes) : search (lit "\r\n") (f.type ++ (lit "\r\n" ++ rest)) =
      some f.type.length := by
    refine search_of_not_mem (k := 0) (c := CR) rfl ?_
    rw [List.take_zero, List.append_nil]
    exact hplain
  dsimp only
  rw [hvalue, hend, Option.getD_some, List.take_left]

/-- A request whose head comes first is read as what it is meant to be. -/
theorem requestIn_of_head (f : ClientRequest) {n : ℕ} (hn : f.head.length ≤ n) (rest : Bytes) :
    requestIn ((f.encode ++ rest).take n) (f.encode ++ rest) = some f.parsed := by
  have hbuf : (f.encode ++ rest).take n = f.head ++ (f.body ++ rest).take (n - f.head.length) := by
    rw [encode, List.append_assoc, List.take_append, List.take_of_length_le hn]
  have htext (x : Bytes) : cstr (f.head ++ x) = f.head ++ cstr x :=
    List.takeWhile_append_of_pos fun b hb => decide_eq_true (ne_of_mem_of_not_mem hb f.not_mem_head)
  have hline (tail : Bytes) : (f.head ++ tail).take f.requestLine.length = f.requestLine := by
    rw [head_append, List.take_left]
  rw [requestIn, hbuf, htext]
  simp only [Option.bind_eq_bind]
  rw [search_requestLine, Option.bind_some, hline, parseRequestLine_requestLine, Option.bind_some]
  dsimp only
  rw [drop_requestLine, search_blank]
  dsimp only
  rw [contentLength_eq, contentType_eq, Option.map_some]
  -- the body begins behind the head
  have htwo : (lit "\r\n").length = 2 := rfl
  have hlen : f.requestLine.length + 2 + ((linesText f.lines).length - 2) + 4 = f.head.length := by
    have hlines := length_linesText f.lines_ne_nil
    rw [List.length_append] at hlines
    rw [head, List.length_append, List.length_append, List.length_append]
    omega
  have hbody : ((f.encode ++ rest).drop f.head.length).take (min f.body.length HTTP_MAX_BODY) =
      f.body.take HTTP_MAX_BODY := by
    rw [encode, List.append_assoc, List.drop_left, List.take_append_of_le_length (min_le_left _ _),
      Nat.min_comm]
    exact List.take_eq_take_min.symm
  rw [hlen, hbody]
  rfl

theorem parseHttpRequest_of_head (f : ClientRequest) {rest : Bytes} {r : Receiver UInt8}
    (hr : r.unread = f.encode ++ rest) (hhead : f.head.length ≤ firstSegment r) :
    (parseHttpRequest r).1 = some f.parsed := by
  rw [parseHttpRequest_eq, hr]
  exact f.requestIn_of_head hhead rest

end ClientRequest

/-! ### A request in two segments -/

/-- A stream of which so much comes at first, and the rest at once. -/
def inTwo (n : ℕ) (stream : Bytes) : Receiver UInt8 where
  buffered := []
  coming := stream
  ended := true
  arrivals k := if k = 0 then n else stream.length
  chunks _ := stream.length
  calls := 0

def startRequest : ClientRequest where
  method := lit "POST"
  target := lit "/api/torrents/0/start"
  lines := [lit "Host: ps5", lit "Content-Type: text/plain", lit "Content-Length: 2"]
  type := lit "text/plain"
  body := lit "ok"
  method_plain := by decide
  target_plain := by decide
  lines_plain := by decide
  length_line := ⟨[lit "Host: ps5", lit "Content-Type: text/plain"], [], rfl, by decide⟩
  type_line := ⟨[lit "Host: ps5"], [lit "Content-Length: 2"], rfl, by decide⟩
  type_plain := by decide
  length_lt := by decide

theorem parsed_startRequest :
    (parseHttpRequest (inTwo startRequest.head.length startRequest.encode)).1 =
      some startRequest.parsed :=
  startRequest.parseHttpRequest_of_head (List.append_nil _).symm (by decide +kernel)

theorem parseHttpRequest_body_startRequest :
    startRequest.parsed.path.length < 1024 ∧ startRequest.parsed.query.length < 2048 ∧
      startRequest.parsed.contentType.length < 128 ∧
      ∀ body, startRequest.parsed.body = some body → ∃ start clen, clen ≤ HTTP_MAX_BODY ∧
        lit "\r\n\r\n" <:+ startRequest.encode.take start ∧
          body = (startRequest.encode.drop start).take clen :=
  parseHttpRequest_body parsed_startRequest

end PS5Torrent
