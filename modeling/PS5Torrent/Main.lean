import PS5Torrent.ConsoleFiles
import PS5Torrent.Numerals
import PS5Torrent.TorrentMgr.Magnet

/-!
# The requests that change something

The handlers of `main.c` that call the torrent manager: a torrent is added, by
a magnet link, an upload or a file of the console, and started at once; or it is
started, stopped or removed by its id. An added torrent that cannot be started
is removed again.

A handler gives its reply and the manager after it. What it takes from elsewhere
is in `Console`.
-/

namespace PS5Torrent

/-- What the handlers take from elsewhere: whether the payload has access to the
    file system, the peer id that is drawn, what is on the stack. -/
structure Console extends ConsoleDisk where
  localAccess : Bool
  peerId : Bytes
  stack : Bytes

def storagePathsGetDefault : Bytes := lit "/mnt/usb0/"

/-- A parameter that is looked for in a cleared buffer. -/
def param (body key : Bytes) (size : ℕ) : Bytes := (httpGetParam body key size).getD []

/-- The destination of a download, the default one if none is named. -/
def destination (path : Bytes) : Bytes := if path = [] then storagePathsGetDefault else path

/-- `torrent_mgr_get` -/
def TorrentMgr.torrentMgrGet (m : TorrentMgr) (index : ℤ) : Option ManagedTorrent :=
  if index < 0 ∨ index ≥ m.torrents.length then none else m.torrents[index.toNat]?

/-! ## Replies -/

/-- The reason that a client is told when a start fails. -/
def startErrorMessage (mt : Option ManagedTorrent) : Bytes :=
  match mt with
  | some mt =>
    if cstr mt.errorMsg ≠ [] then cstr mt.errorMsg else lit "Não foi possível iniciar o torrent"
  | none => lit "Não foi possível iniciar o torrent"

def startErrorStatus (mt : Option ManagedTorrent) : ℕ :=
  if mt.map ManagedTorrent.errorType = some .writeFailed then 403 else 400

/-- The message with what to do without access to the file system. -/
def detailedMessage (c : Console) (status : ℕ) (message : Bytes) : Bytes :=
  if status = 403 ∧ !c.localAccess then
    snprintf 512 (message ++
      lit ". O payload não conseguiu obter acesso local; reinicie-o pelo loader")
  else message

/-- The reply of `torrent_start_error_response`. -/
def startErrorReply (c : Console) (mt : Option ManagedTorrent) : Reply :=
  let status := startErrorStatus mt
  let escaped := jsonEscapeText (detailedMessage c status (startErrorMessage mt)) 512
  .printed status 640
    (lit "\x7b\"success\":false,\"error\":\"" ++ escaped ++ lit "\"\x7d")

def torrentStartErrorResponse (c : Console) (m : TorrentMgr) (index : ℤ) (removeTorrent : Bool) :
    Reply × TorrentMgr :=
  (startErrorReply c (m.torrentMgrGet index),
    if removeTorrent then m.torrentMgrRemove index else m)

/-- The reply to a request that added a torrent. -/
def addedReply (m : TorrentMgr) (index : ℕ) (fallback : Bytes) (escapedSize jsonSize : ℕ) : Reply :=
  let name := ((m.torrentMgrGet index).map ManagedTorrent.name).getD fallback
  .printed 200 jsonSize (lit "\x7b\"success\":true,\"id\":" ++ printInt index ++
    lit ",\"name\":\"" ++ jsonEscapeText name escapedSize ++ lit "\"\x7d")

/-- The end of the three handlers that add a torrent: it is started. -/
def startAdded (c : Console) (m : TorrentMgr) (index : ℕ) (fallback : Bytes)
    (escapedSize jsonSize : ℕ) : Reply × TorrentMgr :=
  match m.torrentMgrStart index with
  | (false, m) => torrentStartErrorResponse c m index true
  | (true, m) => (addedReply m index fallback escapedSize jsonSize, m)

/-! ## Handlers -/

def handleApiAdd (c : Console) (req : HttpRequest) (m : TorrentMgr) : Reply × TorrentMgr :=
  match req.posted with
  | none =>
    (.counted 400 (lit "\x7b\"success\":false,\"error\":\"POST required\"\x7d") 43, m)
  | some body =>
    let magnet := param body (lit "magnet") 2048
    let path := param body (lit "path") 512
    if magnet = [] then
      (.counted 400 (lit "\x7b\"success\":false,\"error\":\"Magnet link required\"\x7d") 50, m)
    else
      match buildSavePath (destination path) 512 with
      | none => (.json 400 (lit "\x7b\"success\":false,\"error\":\"Caminho inválido\"\x7d"), m)
      | some savePath =>
        match m.torrentMgrAddMagnet magnet savePath c.peerId c.stack with
        | (none, m) =>
          (.counted 400 (lit "\x7b\"success\":false,\"error\":\"Invalid magnet link or " ++
            lit "too many torrents\"\x7d") 60, m)
        | (some index, m) => startAdded c m index (lit "Unknown") 384 512

def handleApiUpload (c : Console) (req : HttpRequest) (m : TorrentMgr) : Reply × TorrentMgr :=
  match req.posted with
  | none =>
    (.counted 400 (lit "\x7b\"success\":false,\"error\":\"File required\"\x7d") 44, m)
  | some body =>
    if body = [] then
      (.counted 400 (lit "\x7b\"success\":false,\"error\":\"File required\"\x7d") 44, m)
    else
      match (httpGetUpload body (lit "torrent") [] 256).1 with
      | none =>
        (.json 400 (lit "\x7b\"success\":false,\"error\":\"Use multipart upload instead\"\x7d"), m)
      | some fileData =>
        let path := cstr ((httpGetMultipartField body (lit "path") 512).getD [])
        if fileData = [] then
          (.counted 400 (lit "\x7b\"success\":false,\"error\":\"Empty file\"\x7d") 41, m)
        else
          match buildSavePath (destination path) 512 with
          | none => (.json 400 (lit "\x7b\"success\":false,\"error\":\"Caminho inválido\"\x7d"), m)
          | some savePath =>
            match m.torrentMgrAddRaw fileData savePath c.peerId with
            | (none, m) =>
              (.counted 400 (lit "\x7b\"success\":false,\"error\":\"Invalid torrent file\"\x7d") 50,
                m)
            | (some index, m) => startAdded c m index (lit "Unknown") 384 512

def handleApiLocal (c : Console) (req : HttpRequest) (m : TorrentMgr) : Reply × TorrentMgr :=
  match req.posted with
  | none => (.counted 400 (lit "\x7b\x7d") 2, m)
  | some body =>
    let source := param body (lit "source") 1024
    let path := param body (lit "path") 512
    match consoleTorrentRead c.toConsoleDisk source, buildSavePath (destination path) 512 with
    | some data, some savePath =>
      match m.torrentMgrAddRaw data savePath c.peerId with
      | (none, m) =>
        (.json 400 (lit "\x7b\"error\":\"Invalid torrent or torrent limit reached\"\x7d"), m)
      | (some index, m) => startAdded c m index (lit "torrent") 1536 1664
    | _, _ =>
      (.json 400 (lit "\x7b\"error\":\"Cannot read torrent or destination (maximum 1 MB)\"\x7d"), m)

/-- An id, an `int`, with one more digit; a negative one starts again. An
    overflow, which is undefined in C, is read as a wrap-around. -/
def nextId (id : ℤ) (c : UInt8) : ℤ :=
  toInt32 (toInt32 ((if id < 0 then 0 else id) * 10) + Decimal.digitVal c)

/-- The loop over the digits of an id, with what comes after them. -/
def readId (id : ℤ) : Bytes → ℤ × Bytes
  | [] => (id, [])
  | c :: p => if Decimal.isDigit c then readId (nextId id c) p else (id, c :: p)

/-- The calls that a client can ask for by name. -/
inductive Action
  | start
  | stop
  | remove
deriving DecidableEq

namespace Action

def name : Action → Bytes
  | start => lit "start"
  | stop => lit "stop"
  | remove => lit "remove"

def ofName (name : Bytes) : Option Action :=
  if name = lit "start" then some start
  else if name = lit "stop" then some stop
  else if name = lit "remove" then some remove
  else none

def event (a : Action) (id : ℤ) : Event :=
  match a with
  | start => .start id
  | stop => .stop id
  | remove => .remove id

end Action

/-- The call: only that of a start tells whether it succeeds. -/
def TorrentMgr.act (m : TorrentMgr) (id : ℤ) : Action → Bool × TorrentMgr
  | .start => m.torrentMgrStart id
  | .stop => (true, m.torrentMgrStop id)
  | .remove => (true, m.torrentMgrRemove id)

def actionReply (action : Bytes) (id : ℤ) : Reply :=
  .printed 200 128 (lit "\x7b\"success\":true,\"action\":\"" ++ action ++ lit "\",\"id\":" ++
    printInt id ++ lit "\x7d")

def invalidAction : Reply :=
  .json 400 (lit "\x7b\"success\":false,\"error\":\"Ação inválida\"\x7d")

def handleApiAction (c : Console) (req : HttpRequest) (m : TorrentMgr) : Reply × TorrentMgr :=
  if req.method ≠ .post then
    (.counted 400 (lit "\x7b\"success\":false,\"error\":\"POST required\"\x7d") 43, m)
  else
    match readId (-1) ((cstr req.path).drop 14) with
    | (id, p) =>
      if id < 0 ∨ p.head? ≠ some (chr '/') then
        (.counted 400 (lit "\x7b\"success\":false,\"error\":\"Invalid path\"\x7d") 43, m)
      else
        let action := strncpy 16 p.tail
        match Action.ofName action with
        | none => (invalidAction, m)
        | some a =>
          match m.act id a with
          | (true, m) => (actionReply action id, m)
          | (false, m) =>
            if (m.torrentMgrGet id).isSome then torrentStartErrorResponse c m id false
            else (invalidAction, m)

/-! ## Dispatch -/

/-- The handlers for a `POST`. -/
inductive Handler
  | add
  | upload
  | localFile
  | action
  | mkdir
deriving DecidableEq

/-- The prefixes in the order in which they are registered; the handlers that
    only read are not distinguished. -/
def handlers : List (Bytes × Option Handler) :=
  [(lit "/api/torrents/add", some .add),
    (lit "/api/torrents/upload", some .upload),
    (lit "/api/torrents/local", some .localFile),
    (lit "/api/torrents/", some .action),
    (lit "/api/torrents", none),
    (lit "/api/paths", none),
    (lit "/api/status", none),
    (lit "/api/logs", none),
    (lit "/api/files/mkdir", some .mkdir),
    (lit "/api/files", none),
    (lit "/", none)]

/-- The handler that `http_server_poll` finds for a path. -/
def findHandler (path : Bytes) : Option Handler :=
  ((handlers.find? fun entry => entry.1.isPrefixOf (cstr path)).bind Prod.snd)

def Handler.handle (c : Console) (req : HttpRequest) (m : TorrentMgr) : Handler → Reply × TorrentMgr
  | add => handleApiAdd c req m
  | upload => handleApiUpload c req m
  | localFile => handleApiLocal c req m
  | action => handleApiAction c req m
  | mkdir => (consoleFilesMkdir c.toConsoleDisk req, m)

end PS5Torrent
