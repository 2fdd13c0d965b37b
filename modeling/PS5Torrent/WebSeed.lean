import PS5Torrent.Torrent.Geometry
import PS5Torrent.Library.Decimal
import PS5Torrent.Library.Effect

/-!
# Web seeds

`web_seed.c`: pieces are fetched by HTTP range requests from the web seeds of
a torrent, one file part at a time. The network (name resolution, and what a
server sends back on a connection) is a parameter, `Net`: a response arrives
in segments, and ends where the peer closes the connection or the timeout
expires.

A fetch is a computation over the buffer it fills, which is left partly
filled if it fails. As in the file writer, the offset arithmetic is written
over the conversion of each result to `uint64_t`.
-/

namespace PS5Torrent

open Effect

/-! ## URLs -/

/-- The characters of a path that are not escaped. -/
def isUrlPathChar (c : UInt8) : Bool :=
  (chr 'A' ≤ c ∧ c ≤ chr 'Z') || (chr 'a' ≤ c ∧ c ≤ chr 'z') || (chr '0' ≤ c ∧ c ≤ chr '9') ||
    c = chr '/' || c = chr '-' || c = chr '_' || c = chr '.' || c = chr '~'

def upperHex (n : ℕ) : UInt8 := (lit "0123456789ABCDEF").getD n 0

/-- The loop of `append_url_path`, after `out`. -/
def appendEscaped (outSize : ℕ) : Bytes → Bytes → Option Bytes
  | out, [] => some out
  | out, c :: path =>
    if isUrlPathChar c then
      if out.length + 1 ≥ outSize then none else appendEscaped outSize (out ++ [c]) path
    else if out.length + 3 ≥ outSize then none
    else appendEscaped outSize
      (out ++ [chr '%', upperHex (c.toNat / 16), upperHex (c.toNat % 16)]) path

/-- The base with a slash after it, and the escaped path, if they fit. -/
def appendUrlPath (outSize : ℕ) (base path : Bytes) : Option Bytes :=
  let out := base ++ if base.getLast? = some (chr '/') then [] else [chr '/']
  if out.length ≥ outSize then none else appendEscaped outSize out path

/-- The digits of a port, accumulated in an `int`. -/
def parsePort : Bytes → ℤ → Option ℤ
  | [], value => some value
  | c :: cs, value =>
    if c < chr '0' ∨ c > chr '9' then none
    else parsePort cs (toInt32 (value * 10 + (c.toNat - (chr '0').toNat)))

/-- The host, port and path of an `http://` URL. -/
def parseHttpUrl (url : Bytes) (hostSize : ℕ) : Option (Bytes × ℤ × Bytes) :=
  if !(lit "http://").isPrefixOf url then none
  else
    let start := url.drop 7
    let authority := start.takeWhile (· ≠ chr '/')
    let path := start.dropWhile (· ≠ chr '/')
    let host := authority.takeWhile (· ≠ chr ':')
    if path = [] then none
    else if host.length = 0 ∨ host.length ≥ hostSize then none
    else if chr ':' ∉ authority then some (host, 80, path)
    else
      match parsePort (authority.dropWhile (· ≠ chr ':')).tail 0 with
      | none => none
      | some value => if value ≤ 0 ∨ value > 65535 then none else some (host, value, path)

/-! ## Range requests -/

/-- The network: name resolution, and the response to a request sent on a new
    connection, numbered by the connections made before. There is none if the
    connection cannot be made or the request not be sent. -/
structure Net where
  resolve : Bytes → Option ℕ
  exchange : ℕ → ℕ → ℤ → Bytes → Option (List Bytes)

/-- `recv`, with what is left to come; `none` for the end or an error. -/
def netRecvSome : List Bytes → ℕ → Option (Bytes × List Bytes)
  | [], _ => none
  | segment :: segments, len =>
    if segment = [] then none
    else some (segment.take len,
      if segment.length ≤ len then segments else segment.drop len :: segments)

def HEADER_SIZE : ℕ := 8192

/-- The empty line at the end of a header. -/
def emptyLine : Bytes := lit "\r\n\r\n"

/-- Read a header, byte by byte, until the empty line; there may be `n` bytes more. -/
def readHeader : ℕ → List Bytes → Bytes → Option (Bytes × List Bytes)
  | 0, _, _ => none
  | n + 1, sock, header => do
    let (c, sock) ← netRecvSome sock 1
    if emptyLine.isSuffixOf (header ++ c) then
      if (header ++ c).length ≥ HEADER_SIZE then none else some (header ++ c, sock)
    else readHeader n sock (header ++ c)

/-- Read up to `length` bytes; each call returns one at least, so as much fuel is enough. -/
def readBody : ℕ → ℕ → List Bytes → Bytes
  | 0, _, _ => []
  | fuel + 1, length, sock =>
    if length = 0 then []
    else match netRecvSome sock length with
    | none => []
    | some (chunk, sock) => chunk ++ readBody fuel (length - chunk.length) sock

/-- The number that `%d` reads. -/
def scanInt (s : Bytes) : Option ℤ :=
  let s := s.dropWhile isSpace
  let unsigned := if s.head? = some (chr '-') ∨ s.head? = some (chr '+') then s.tail else s
  let digits := unsigned.takeWhile Decimal.isDigit
  if digits = [] then none
  else some (toInt32 ((if s.head? = some (chr '-') then -1 else 1) * Decimal.value digits))

/-- `sscanf(header, "HTTP/%*s %d", &status)` -/
def scanStatus (header : Bytes) : Option ℤ :=
  let s := cstr header
  if !(lit "HTTP/").isPrefixOf s then none
  else
    let s := (s.drop 5).dropWhile isSpace
    if s.takeWhile (fun c => !isSpace c) = [] then none
    else scanInt (s.dropWhile fun c => !isSpace c)

/-- The request for `length` bytes from `start` on. -/
def rangeRequest (path host : Bytes) (start : ℤ) (length : ℕ) : Bytes :=
  lit "GET " ++ path ++ lit " HTTP/1.0\r\nHost: " ++ host ++
    lit "\r\nUser-Agent: PS5Torrent/2.0.4\r\nRange: bytes=" ++ Decimal.print start.toNat ++ lit "-" ++
    Decimal.print (toUInt64 (start + length - 1)).toNat ++ lit "\r\nConnection: close\r\n\r\n"

/-- The buffer to fill, and the number of connections made. -/
structure Fetch where
  buffer : Bytes
  connections : ℕ

abbrev FetchM := EStateM Unit Fetch

/-- Send a request and return the response, if there is one. -/
def exchange (net : Net) (addr : ℕ) (port : ℤ) (request : Bytes) : FetchM (List Bytes) := fun s =>
  let s' := { s with connections := s.connections + 1 }
  match net.exchange s.connections addr port request with
  | some segments => .ok segments s'
  | none => .error () s'

/-- A step that may fail for want of a result. -/
def orFail {α : Type} : Option α → FetchM α
  | some a => pure a
  | none => throw ()

/-- Fetch `length` bytes of a file from `start` on into the buffer at `outPos`. -/
def httpFetchRange (net : Net) (url : Bytes) (start : ℤ) (length outPos : ℕ) : FetchM Unit :=
  if length = 0 then throw ()
  else do
    let (host, port, path) ← orFail (parseHttpUrl url 256)
    let addr ← orFail (net.resolve host)
    let request := rangeRequest path host start length
    if request.length ≥ 1024 then throw ()
    else do
      let sock ← exchange net addr port request
      let (header, sock) ← orFail (readHeader HEADER_SIZE sock [])
      let status ← orFail (scanStatus header)
      if status ≠ 206 ∧ status ≠ 200 then throw ()
      else if status = 200 ∧ start ≠ 0 then throw ()
      else do
        let body := readBody length length sock
        modify fun s => { s with buffer := memcpyAt s.buffer outPos body }
        if body.length = length then pure () else throw ()

/-! ## Pieces -/

/-- The URL of the single file at a seed. -/
def singleFileUrl (t : Torrent) (seed : Bytes) : Option Bytes :=
  if seed.getLast? = some (chr '/') then appendUrlPath 2048 seed (cstr (t.outputName.getD []))
  else some (seed.take 2047)

/-- The URL of one of several files at a seed. (`printf` shows a missing string as `(null)`.) -/
def multiFileUrl (t : Torrent) (seed : Bytes) (file : TorrentFile) : Option Bytes :=
  let relative :=
    cstr (t.name.getD (lit "(null)")) ++ chr '/' :: cstr (file.path.getD (lit "(null)"))
  if relative.length ≥ 1024 then none else appendUrlPath 2048 seed relative

section Arithmetic

variable {m : Type → Type} [Monad m] (uint64 : ℤ → m ℤ)

/-- The loop of `fetch_multi_file_piece` over the files: `fetchPart file
    rangeFrom outPos partLen` fetches from a file. It returns the final
    position in the buffer. -/
def fetchFiles (fetchPart : TorrentFile → ℤ → ℕ → ℕ → m Unit) (pieceStart pieceEnd : ℤ)
    (length : ℕ) :
    List TorrentFile → ℤ → ℕ → m ℕ
  | [], _, outPos => pure outPos
  | file :: files, fileOffset, outPos =>
    if outPos < length then do
      let fileStart := fileOffset
      let fileEnd ← uint64 (fileStart + file.length)
      if pieceStart < fileEnd ∧ pieceEnd > fileStart then do
        let rangeFrom ← (if pieceStart > fileStart then uint64 (pieceStart - fileStart) else pure 0)
        let rangeTo ← (if pieceEnd < fileEnd then uint64 (pieceEnd - fileStart)
          else uint64 (fileEnd - fileStart))
        let partLen ← uint64 (rangeTo - rangeFrom)
        fetchPart file rangeFrom outPos partLen.toNat
        fetchFiles fetchPart pieceStart pieceEnd length files fileEnd (outPos + partLen.toNat)
      else fetchFiles fetchPart pieceStart pieceEnd length files fileEnd outPos
    else pure outPos

/-- `fetch_multi_file_piece`, over the fetch of a part; it returns whether the
    piece is complete. -/
def multiFilePiece (fetchPart : TorrentFile → ℤ → ℕ → ℕ → m Unit) (t : Torrent)
    (pieceIndex length : ℕ) : m Bool := do
  let pieceStart ← uint64 (pieceIndex * t.pieceLength)
  let pieceEnd ← uint64 (pieceStart + length)
  let outPos ← fetchFiles uint64 fetchPart pieceStart pieceEnd length t.files 0 0
  return outPos = length

/-- The offset of a piece in the single file. -/
def singleFileOffset (t : Torrent) (pieceIndex : ℕ) : m ℤ := uint64 (pieceIndex * t.pieceLength)

end Arithmetic

/-- Fetch a part of one of several files. -/
def fetchPart (net : Net) (t : Torrent) (seed : Bytes) (bufferPos : ℕ) (file : TorrentFile)
    (rangeFrom : ℤ) (outPos partLen : ℕ) : FetchM Unit := do
  let url ← orFail (multiFileUrl t seed file)
  httpFetchRange net url rangeFrom partLen (bufferPos + outPos)

/-- `fetch_multi_file_piece` -/
def fetchMultiFilePiece (net : Net) (t : Torrent) (seed : Bytes) (pieceIndex bufferPos length : ℕ) :
    FetchM Unit := do
  let complete ← multiFilePiece (fun x => pure (toUInt64 x)) (fetchPart net t seed bufferPos) t
    pieceIndex length
  if complete then pure () else throw ()

/-- `fetch_single_file_piece` and `fetch_single_file_span`, which are the same. -/
def fetchSingleFile (net : Net) (t : Torrent) (seed : Bytes) (firstPiece length : ℕ) :
    FetchM Unit := do
  let url ← orFail (singleFileUrl t seed)
  let offset ← singleFileOffset (fun x => pure (toUInt64 x)) t firstPiece
  httpFetchRange net url offset length 0

/-- The loop of a batch over its pieces. -/
def fetchBatch (net : Net) (t : Torrent) (seed : Bytes) : ℕ → ℕ → List ℕ → FetchM Unit
  | _, _, [] => pure ()
  | piece, offset, size :: sizes => do
    fetchMultiFilePiece net t seed piece offset size
    fetchBatch net t seed (piece + 1) (offset + size) sizes

/-- Try the `http://` seeds in turn until one delivers. -/
def trySeeds (fetch : Bytes → FetchM Unit) : List Bytes → FetchM Unit
  | [] => throw ()
  | seed :: seeds =>
    if !(lit "http://").isPrefixOf (cstr seed) then trySeeds fetch seeds
    else tryCatch (fetch (cstr seed)) fun _ => trySeeds fetch seeds

/-- `web_seed_fetch_piece` -/
def webSeedFetchPiece (net : Net) (t : Torrent) (pieceIndex length : ℕ) : FetchM Unit :=
  if length = 0 then throw ()
  else trySeeds (fun seed =>
    if t.isMultiFile then fetchMultiFilePiece net t seed pieceIndex 0 length
    else fetchSingleFile net t seed pieceIndex length) t.webSeeds

/-- `web_seed_fetch_pieces` -/
def webSeedFetchPieces (net : Net) (t : Torrent) (firstPiece : ℕ) (pieceSizes : List ℕ) :
    FetchM Unit :=
  if pieceSizes = [] ∨ 0 ∈ pieceSizes then throw ()
  else trySeeds (fun seed =>
    if t.isMultiFile then fetchBatch net t seed firstPiece 0 pieceSizes
    else fetchSingleFile net t seed firstPiece (toSize pieceSizes.sum)) t.webSeeds

end PS5Torrent
