import PS5Torrent.Basic
import PS5Torrent.Library.Search

/-!
# The HTTP server

The parser of multipart bodies in `http_server.c`: a field is found by its name
anywhere in the body, its data start after the next blank line, and end at the
next line that starts with two dashes. The declared boundary is not used.

A pointer into a buffer is the rest of the buffer.
-/

namespace PS5Torrent

open Search

/-- The largest body of a request, which holds every string a client sends. -/
def HTTP_MAX_BODY : ℕ := 1024 * 1024

/-- The position of the first occurrence of a needle, which must not be empty. -/
def findBytes (haystack needle : Bytes) : Option ℕ :=
  if needle = [] then none else search needle haystack

/-- The length of the headers of a field, with the blank line after them. -/
def multipartDataStart (field : Bytes) : Option ℕ :=
  match findBytes field (lit "\r\n\r\n") with
  | some blank => some (blank + 4)
  | none => (findBytes field (lit "\n\n")).map (· + 2)

/-- The text by which a field is found; it must fit its buffer. -/
def fieldSearch (fieldName : Bytes) : Option Bytes :=
  let text := lit "name=\"" ++ cstr fieldName ++ lit "\""
  if text.length ≥ 256 then none else some text

/-- The name of the file in the headers of a field, if it fits the buffer;
    otherwise the buffer is left as it is. -/
def uploadFilename (field : Bytes) (headersEnd : Option ℕ) (filename : Bytes) (filenameLen : ℕ) :
    Bytes :=
  match findBytes field (lit "filename=\""), headersEnd with
  | some start, some headersEnd =>
    if start < headersEnd then
      let rest := (field.take headersEnd).drop (start + 10)
      match findBytes rest (lit "\"") with
      | some len => if len < filenameLen then rest.take len else filename
      | none => filename
    else filename
  | _, _ => filename

/-- The data of the file in a field, if there are any, and the buffer for its name. -/
def httpGetUpload (body fieldName filename : Bytes) (filenameLen : ℕ) : Option Bytes × Bytes :=
  match (fieldSearch fieldName).bind (findBytes body) with
  | none => (none, filename)
  | some start =>
    let field := body.drop start
    let headersEnd := multipartDataStart field
    let filename := uploadFilename field headersEnd filename filenameLen
    match headersEnd with
    | none => (none, filename)
    | some blank =>
      let data := field.drop blank
      let len := (findBytes data (lit "\r\n--")).getD data.length
      (if len > 0 then some (data.take len) else none, filename)

/-- The value of a field, cut off where the buffer for it ends. -/
def httpGetMultipartField (body fieldName : Bytes) (valueLen : ℕ) : Option Bytes := do
  if valueLen = 0 then none
  let start ← (fieldSearch fieldName).bind (findBytes body)
  let field := body.drop start
  let data := field.drop (← multipartDataStart field)
  let length ← findBytes data (lit "\r\n--")
  return data.take (if length ≥ valueLen then valueLen - 1 else length)

end PS5Torrent
