import PS5Torrent.HttpServer

/-!
# Requests and responses

The part of `http_server.c` between the sockets and the handlers: a parsed
request with the parameters in it, and the response that a handler makes of a
text and a length.
-/

namespace PS5Torrent

inductive HttpMethod
  | get
  | post
  | unsupported
deriving DecidableEq

/-- A parsed request: `body` is what `body_len` counts. -/
structure HttpRequest where
  method : HttpMethod
  path : Bytes
  query : Bytes
  body : Option Bytes
  contentType : Bytes

structure HttpResponse where
  statusCode : ℕ
  contentType : Bytes
  body : Bytes
  bodyLen : ℕ

/-! ## Decoding -/

/-- The value of a hexadecimal digit. -/
def hexDigitVal (c : UInt8) : Option ℕ :=
  if chr '0' ≤ c ∧ c ≤ chr '9' then some (c.toNat - 48)
  else if chr 'a' ≤ c ∧ c ≤ chr 'f' then some (c.toNat - 87)
  else if chr 'A' ≤ c ∧ c ≤ chr 'F' then some (c.toNat - 55)
  else none

/-- `strtol(str, NULL, 16)` for a string of at most two characters, which has no
    room for a prefix `0x`. -/
def strtolHex (str : Bytes) : ℤ :=
  let s := str.dropWhile isSpace
  let digits := if s.head? = some (chr '-') ∨ s.head? = some (chr '+') then s.tail else s
  let value : ℕ := ((digits.map hexDigitVal).takeWhile Option.isSome).foldl
    (fun n d => n * 16 + d.getD 0) 0
  if s.head? = some (chr '-') then -(value : ℤ) else value

/-- The conversion to `char`. -/
def toChar (x : ℤ) : UInt8 := UInt8.ofNat (x % 256).toNat

/-- The loop of `http_url_decode`. -/
def urlDecode : Bytes → Bytes
  | [] => []
  | c :: a :: b :: src =>
    if c = chr '%' then toChar (strtolHex [a, b]) :: urlDecode src
    else if c = chr '+' then chr ' ' :: urlDecode (a :: b :: src)
    else c :: urlDecode (a :: b :: src)
  | c :: src => (if c = chr '+' then chr ' ' else c) :: urlDecode src

/-- `http_url_decode`, with the string that is left: a decoded NUL ends it. -/
def httpUrlDecode (str : Bytes) : Bytes := cstr (urlDecode (cstr str))

/-- The loop of `http_get_param`; a parameter may start here or not. -/
def findParam (key : Bytes) (valLen : ℕ) : Bool → Bytes → Option Bytes
  | _, [] => none
  | start, c :: p =>
    if start && c ≠ chr '&' && (key ++ [chr '=']).isPrefixOf (c :: p) then
      some (httpUrlDecode
        ((((c :: p).drop (key.length + 1)).takeWhile (· ≠ chr '&')).take (valLen - 1)))
    else findParam key valLen (c = chr '&') p

/-- The value of a parameter, cut off where the buffer for it ends. -/
def httpGetParam (query key : Bytes) (valLen : ℕ) : Option Bytes :=
  findParam key valLen true (cstr query)

theorem not_mem_httpUrlDecode (str : Bytes) : 0 ∉ httpUrlDecode str := not_mem_cstr _

/-- The value of a parameter ends at its first NUL. -/
theorem not_mem_getD_httpGetParam (query key : Bytes) (valLen : ℕ) :
    0 ∉ (httpGetParam query key valLen).getD [] := by
  rw [httpGetParam]
  generalize cstr query = p
  generalize true = start
  induction p generalizing start with
  | nil => exact List.not_mem_nil
  | cons c p ih =>
    rw [findParam]
    split
    · exact not_mem_httpUrlDecode _
    · exact ih _

/-- The body of a `POST`, if there is one. -/
def HttpRequest.posted (req : HttpRequest) : Option Bytes :=
  if req.method = .post then req.body else none

/-! ## Responses -/

/-- A handler's response, made of the text `body` and a length: what comes in
    memory after the text and its NUL is not known. -/
def httpResponseNew (memory : ℕ → UInt8) (statusCode : ℕ) (contentType body : Bytes)
    (bodyLen : ℕ) : HttpResponse where
  statusCode := statusCode
  contentType := contentType
  body := (List.range bodyLen).map fun i =>
    if i < body.length then body.getD i 0 else if i = body.length then 0 else memory i
  bodyLen := bodyLen

/-- What a handler calls `http_response_new` with. -/
structure Reply where
  statusCode : ℕ
  contentType : Bytes
  text : Bytes
  bodyLen : ℕ

namespace Reply

/-- A JSON text with a length that is given as a number. -/
def counted (statusCode : ℕ) (text : Bytes) (bodyLen : ℕ) : Reply where
  statusCode := statusCode
  contentType := lit "application/json"
  text := text
  bodyLen := bodyLen

/-- A JSON text with its own length. -/
def json (statusCode : ℕ) (text : Bytes) : Reply := counted statusCode text text.length

/-- A JSON text printed into a buffer, with the length that `snprintf` returns. -/
def printed (statusCode size : ℕ) (text : Bytes) : Reply :=
  counted statusCode (text.take (size - 1)) text.length

def response (r : Reply) (memory : ℕ → UInt8) : HttpResponse :=
  httpResponseNew memory r.statusCode r.contentType r.text r.bodyLen

end Reply

theorem body_httpResponseNew_of_le {memory : ℕ → UInt8} {statusCode bodyLen : ℕ}
    {contentType body : Bytes} (h : bodyLen ≤ body.length) :
    (httpResponseNew memory statusCode contentType body bodyLen).body = body.take bodyLen := by
  refine List.ext_getElem? fun i => ?_
  rw [httpResponseNew, List.getElem?_map, List.getElem?_take]
  by_cases hi : i < bodyLen
  · rw [List.getElem?_range hi, Option.map_some, if_pos (by omega), if_pos hi,
      List.getD_eq_getElem?_getD, List.getElem?_eq_getElem (by omega), Option.getD_some]
  · rw [List.getElem?_eq_none (by rw [List.length_range]; omega), Option.map_none, if_neg hi]

/-- The response has the text as its body exactly if the length is that of the text. -/
theorem body_httpResponseNew_iff {memory : ℕ → UInt8} {statusCode bodyLen : ℕ}
    {contentType body : Bytes} :
    (httpResponseNew memory statusCode contentType body bodyLen).body = body ↔
      bodyLen = body.length := by
  refine ⟨fun h => ?_, ?_⟩
  · have hlength := congrArg List.length h
    rwa [httpResponseNew, List.length_map, List.length_range] at hlength
  · rintro rfl
    rw [body_httpResponseNew_of_le le_rfl, List.take_length]

end PS5Torrent
