import PS5Torrent.HttpServer.Escape
import PS5Torrent.Syscall

/-!
# The files of the console

`console_files.c`: a folder is made, and a metainfo file is read, at a path that
the client names. What the file system answers is given (`ConsoleDisk`).
-/

namespace PS5Torrent

/-- What the file system answers: the content of a regular file, if it can be
    read; the path that `realpath` resolves a path to; whether a directory can
    be opened; the error of `mkdirat`, if it fails. -/
structure ConsoleDisk where
  regularFile : Bytes → Option Bytes
  realpath : Bytes → Option Bytes
  opendir : Bytes → Bool
  mkdirat : Bytes → Bytes → Option Errno

/-- `tolower` -/
def toLower (c : UInt8) : UInt8 := if chr 'A' ≤ c ∧ c ≤ chr 'Z' then c + 32 else c

/-- The name of a metainfo file. -/
def torrentName (s : Bytes) : Bool :=
  s.length > 8 && (s.drop (s.length - 8)).map toLower = lit ".torrent"

def consoleTorrentRead (disk : ConsoleDisk) (path : Bytes) : Option Bytes :=
  if path.head? ≠ some (chr '/') || !torrentName path then none
  else
    match disk.regularFile path with
    | none => none
    | some data => if data.length = 0 ∨ data.length > HTTP_MAX_BODY then none else some data

def folderError (status : ℕ) (message : Bytes) : Reply :=
  .printed status 256 (lit "\x7b\"error\":\"" ++ message ++ lit "\"\x7d")

/-- A character that the name of a folder must not have. -/
def badFolderChar (c : UInt8) : Bool := c = chr '/' || c = chr '\\' || c < 32 || c = 127

def consoleFilesMkdir (disk : ConsoleDisk) (req : HttpRequest) : Reply :=
  match req.posted with
  | none => folderError 405 (lit "POST required")
  | some body =>
    let parent := (httpGetParam body (lit "path") 2048).getD []
    let name := (httpGetParam body (lit "name") 2048).getD []
    if name = [] ∨ name.length > 255 ∨ name = lit "." ∨ name = lit ".." then
      folderError 400 (lit "Nome de pasta inválido.")
    else if name.any badFolderChar then folderError 400 (lit "Nome de pasta inválido.")
    else
      match if parent.head? = some (chr '/') then (disk.realpath parent).map cstr else none with
      | none => folderError 403 (lit "Não foi possível abrir esta pasta.")
      | some resolved =>
        let child := resolved ++ (if resolved = lit "/" then [] else lit "/") ++ name
        if child.length ≥ 4096 then folderError 400 (lit "Caminho muito longo.")
        else if !disk.opendir resolved then
          folderError 403 (lit "Não foi possível abrir esta pasta.")
        else
          match disk.mkdirat resolved name with
          | some errno =>
            folderError (if errno = .EEXIST then 409 else 403)
              (if errno = .EEXIST then lit "Já existe um item com esse nome."
                else lit "Não foi possível criar a pasta.")
          | none =>
            .printed 200 24640
              (lit "\x7b\"success\":true,\"path\":\"" ++ escape child ++ lit "\"\x7d")

end PS5Torrent
