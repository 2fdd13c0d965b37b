import PS5Torrent.Bencode
import PS5Torrent.Sha1

/-!
# Metainfo

`torrent_parse` (`torrent.c`): the fields of a `.torrent` file, read leniently
out of its bencoded tree, with one check of the geometry at the end. A field
that is missing or of the wrong type is skipped; a string is the byte buffer
the source allocates for it, and what later reads it as a C string ends at
its first NUL (`cstr`).
-/

namespace PS5Torrent

open Bencode Sha1

/-- The most files of a multi-file torrent. -/
def MAX_TORRENT_FILES : ℕ := 1024

/-- A file of a multi-file torrent; the path is `none` if the metainfo has none. -/
structure TorrentFile where
  path : Option Bytes
  length : ℤ
deriving DecidableEq

/-- A parsed metainfo. -/
structure Torrent where
  announce : Option Bytes
  announceList : List Bytes
  webSeeds : List Bytes
  infoDictRaw : Bytes
  infoHash : Bytes
  name : Option Bytes
  pieceLength : ℤ
  pieces : Option Bytes
  numPieces : ℕ
  isMultiFile : Bool
  totalSize : ℤ
  length : ℤ
  fileName : Option Bytes
  files : List TorrentFile
deriving Inhabited

namespace Torrent

/-- The length of the concatenated hashes, `0` without any. -/
def piecesLen (t : Torrent) : ℕ := (t.pieces.getD []).length

def numFiles (t : Torrent) : ℕ := t.files.length

/-- The name of the single file. -/
def outputName (t : Torrent) : Option Bytes := t.fileName.or t.name

/-- The hash the metainfo gives for a piece: `pieces + index * 20`. -/
def pieceHash (t : Torrent) (index : ℕ) : Bytes :=
  ((t.pieces.getD []).drop (index * SHA1_DIGEST_SIZE)).take SHA1_DIGEST_SIZE

end Torrent

/-! ## Parsing -/

/-- The URLs of all tiers of `announce-list`. -/
def parseAnnounceList (root : List (Bytes × BcodeNode)) : List Bytes :=
  match bcodeDictGet root (lit "announce-list") with
  | some (.list tiers) => tiers.flatMap fun tier =>
      match tier with
      | .list urls => urls.filterMap bcodeStrVal
      | _ => []
  | _ => []

/-- The web seeds: one URL or a list of them, without the empty ones. -/
def parseUrlList (root : List (Bytes × BcodeNode)) : List Bytes :=
  match bcodeDictGet root (lit "url-list") with
  | some (.str url) => if url.length > 0 then [url] else []
  | some (.list urls) => (urls.filterMap bcodeStrVal).filter fun url => url.length ≠ 0
  | _ => []

/-- The path of a file: its components, joined by slashes. A component that
    is no string contributes nothing but its separator. -/
def joinComponents : List BcodeNode → Bytes
  | [] => []
  | [c] => (bcodeStrVal c).getD []
  | c :: cs => (bcodeStrVal c).getD [] ++ chr '/' :: joinComponents cs

/-- An entry of the list of files. -/
def parseFileEntry (fentry : List (Bytes × BcodeNode)) : TorrentFile where
  length := ((bcodeDictGet fentry (lit "length")).map bcodeIntVal).getD 0
  path :=
    match bcodeDictGet fentry (lit "path") with
    | some (.list components) => some (joinComponents components)
    | _ => none

/-- The list of files, with the sum of their lengths so far; refused if a
    length is negative or the sum exceeds `INT64_MAX`. An entry that is no
    dictionary is an empty file without a path. -/
def parseFiles : List BcodeNode → ℤ → Option (List TorrentFile × ℤ)
  | [], total => some ([], total)
  | .dict fentry :: entries, total =>
    let file := parseFileEntry fentry
    if file.length < 0 ∨ file.length > INT64_MAX - total then none
    else (parseFiles entries (total + file.length)).map fun (files, total) =>
      (file :: files, total)
  | _ :: entries, total =>
    (parseFiles entries total).map fun (files, total) => (⟨none, 0⟩ :: files, total)

/-- The layout of the payload: several files, or a single one with its name. -/
inductive Layout
  | multi (files : List TorrentFile) (totalSize : ℤ)
  | single (fileName : Option Bytes) (length : ℤ)

/-- The files of a multi-file torrent, or the single file. -/
def parseLayout (info : List (Bytes × BcodeNode)) : Option Layout :=
  match bcodeDictGet info (lit "files") with
  | some (.list entries) =>
    if entries.length > MAX_TORRENT_FILES then none
    else (parseFiles entries 0).map fun (files, total) => .multi files total
  | _ =>
    some (.single ((bcodeDictGet info (lit "name")).bind bcodeStrVal)
      (((bcodeDictGet info (lit "length")).map bcodeIntVal).getD 0))

namespace Layout

def isMultiFile : Layout → Bool
  | multi .. => true
  | single .. => false

def files : Layout → List TorrentFile
  | multi files _ => files
  | single .. => []

def fileName : Layout → Option Bytes
  | multi .. => none
  | single name _ => name

def totalSize : Layout → ℤ
  | multi _ total => total
  | single _ length => length

def length : Layout → ℤ
  | multi .. => 0
  | single _ length => length

end Layout

/-- The check at the end of `torrent_parse`: the required fields are there,
    the sizes are positive, and there are as many whole hashes as pieces. -/
def Torrent.geometryOk (t : Torrent) : Bool :=
  t.name.isSome && t.pieces.isSome && 0 < t.pieceLength && 0 < t.totalSize &&
    t.piecesLen % SHA1_DIGEST_SIZE = 0 &&
    t.numPieces = t.totalSize.toNat / t.pieceLength.toNat +
      if t.totalSize.tmod t.pieceLength ≠ 0 then 1 else 0

/-- The metainfo read from the dictionaries `root` and `info`. -/
def Torrent.ofDicts (root info : List (Bytes × BcodeNode)) (layout : Layout) : Torrent :=
  let infoDictRaw := bcodeEncode (.dict info)
  let pieces := (bcodeDictGet info (lit "pieces")).bind bcodeStrVal
  { announce := (bcodeDictGet root (lit "announce")).bind bcodeStrVal
    announceList := parseAnnounceList root
    webSeeds := parseUrlList root
    infoDictRaw := infoDictRaw
    infoHash := sha1Hash infoDictRaw
    name := (bcodeDictGet info (lit "name")).bind bcodeStrVal
    pieceLength := ((bcodeDictGet info (lit "piece length")).map bcodeIntVal).getD 0
    pieces := pieces
    numPieces := (pieces.getD []).length / SHA1_DIGEST_SIZE
    isMultiFile := layout.isMultiFile
    totalSize := layout.totalSize
    length := layout.length
    fileName := layout.fileName
    files := layout.files }

/-- Parse a `.torrent` file from memory. -/
def torrentParse (data : Bytes) : Option Torrent := do
  let .dict root ← bcodeParse data | none
  let .dict info ← bcodeDictGet root (lit "info") | none
  let layout ← parseLayout info
  let t := Torrent.ofDicts root info layout
  if t.geometryOk then some t else none

/-- The metainfo in an accepted file. -/
def parsed (data : Bytes) : Torrent := (torrentParse data).getD default

theorem torrentParse_eq_parsed {data : Bytes} (h : (torrentParse data).isSome) :
    torrentParse data = some (parsed data) := by
  obtain ⟨t, ht⟩ := Option.isSome_iff_exists.1 h
  rw [parsed, ht, Option.getD_some]

/-- What an accepted metainfo consists of. -/
theorem torrentParse_eq_some {data : Bytes} {t : Torrent} (h : torrentParse data = some t) :
    ∃ root info layout, bcodeParse data = some (.dict root) ∧
      bcodeDictGet root (lit "info") = some (.dict info) ∧ parseLayout info = some layout ∧
      t = Torrent.ofDicts root info layout ∧ t.geometryOk := by
  rw [torrentParse, Option.bind_eq_bind, Option.bind_eq_some_iff] at h
  obtain ⟨tree, hroot, h⟩ := h
  split at h
  case h_2 => simp at h
  rename_i root
  rw [Option.bind_eq_bind, Option.bind_eq_some_iff] at h
  obtain ⟨node, hinfo, h⟩ := h
  split at h
  case h_2 => simp at h
  rename_i info
  rw [Option.bind_eq_some_iff] at h
  obtain ⟨layout, hlayout, h⟩ := h
  simp only [Option.ite_none_right_eq_some, Option.some.injEq] at h
  exact ⟨root, info, layout, hroot, hinfo, hlayout, h.2.symm, h.2 ▸ h.1⟩

end PS5Torrent
