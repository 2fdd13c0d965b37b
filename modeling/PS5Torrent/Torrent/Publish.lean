import PS5Torrent.Bencode.RoundTrip
import PS5Torrent.Library.Records
import PS5Torrent.Torrent.Geometry

/-!
# Publishing a torrent

A publication is a file, or several files in a directory, with a piece length
and the places to get it from. Its metainfo is the bencoding of these data,
where the payload, which is the contents of the files one after the other, is
cut into pieces, and each piece is given by its hash.

`torrent_parse` reads all of it back: the metainfo is accepted, it describes the
payload, and each file that it lists has its path and its part of the payload
(`torrentParse_metainfo`).
-/

namespace PS5Torrent

open Bencode Sha1 FileLayout

/-- The pieces of a payload have the hashes that a metainfo gives for them. -/
def Torrent.Describes (t : Torrent) (payload : Bytes) : Prop :=
  payload.length = t.totalSize.toNat ∧
    ∀ index < t.numPieces, sha1Hash (t.pieceData payload index) = t.pieceHash index

/-- A file to be published, with the components of its path. -/
structure PublishedFile where
  components : List Bytes
  content : Bytes

namespace PublishedFile

/-- The entry of the file in the list of files. -/
def entry (file : PublishedFile) : BcodeNode :=
  .dict [(lit "length", .int file.content.length), (lit "path", .list (file.components.map .str))]

/-- The file as the metainfo lists it. -/
def listed (file : PublishedFile) : TorrentFile where
  path := some ([chr '/'].intercalate file.components)
  length := file.content.length

end PublishedFile

inductive PublishedContent
  | single (content : Bytes)
  | directory (files : List PublishedFile)

namespace PublishedContent

/-- The files, of which a single one has the name of the torrent. -/
def files (name : Bytes) : PublishedContent → List PublishedFile
  | single content => [⟨[name], content⟩]
  | directory files => files

/-- The entry of the info dictionary that gives the files. -/
def entry : PublishedContent → Bytes × BcodeNode
  | single content => (lit "length", .int content.length)
  | directory files => (lit "files", .list (files.map PublishedFile.entry))

def isDirectory : PublishedContent → Bool
  | single _ => false
  | directory _ => true

end PublishedContent

/-- What is published. The payload is not empty, and its length is an `int64_t`. -/
structure Publication where
  name : Bytes
  content : PublishedContent
  pieceLength : ℕ
  announce : Bytes
  announceList : List (List Bytes)
  webSeeds : List Bytes
  payload_pos : 0 < total (List.length ∘ PublishedFile.content) (content.files name)
  payload_le : (total (List.length ∘ PublishedFile.content) (content.files name) : ℤ) ≤ INT64_MAX
  files_le : (content.files name).length ≤ MAX_TORRENT_FILES
  pieceLength_pos : 0 < pieceLength
  pieceLength_le : (pieceLength : ℤ) ≤ INT64_MAX

namespace Publication

variable (p : Publication)

def files : List PublishedFile := p.content.files p.name

/-- The contents of the files, one after the other. -/
def payload : Bytes := p.files.flatMap PublishedFile.content

/-- A piece of the payload. -/
def piece (index : ℕ) : Bytes := (p.payload.drop (index * p.pieceLength)).take p.pieceLength

def numPieces : ℕ := p.payload.length ⌈/⌉ p.pieceLength

def hashes : Bytes := (List.range p.numPieces).flatMap fun index => sha1Hash (p.piece index)

def info : List (Bytes × BcodeNode) :=
  [p.content.entry, (lit "name", .str p.name), (lit "piece length", .int p.pieceLength),
    (lit "pieces", .str p.hashes)]

def root : List (Bytes × BcodeNode) :=
  [(lit "announce", .str p.announce),
    (lit "announce-list", .list (p.announceList.map fun tier => .list (tier.map .str))),
    (lit "info", .dict p.info),
    (lit "url-list", .list (p.webSeeds.map .str))]

/-- The file that is published. -/
def metainfo : Bytes := bcodeEncode (.dict p.root)

/-- The metainfo as it is parsed. -/
def torrent : Torrent where
  announce := some p.announce
  announceList := p.announceList.flatten
  webSeeds := p.webSeeds.filter fun url => url.length ≠ 0
  infoDictRaw := bcodeEncode (.dict p.info)
  infoHash := sha1Hash (bcodeEncode (.dict p.info))
  name := some p.name
  pieceLength := p.pieceLength
  pieces := some p.hashes
  numPieces := p.numPieces
  isMultiFile := p.content.isDirectory
  totalSize := p.payload.length
  length := if p.content.isDirectory then 0 else p.payload.length
  fileName := if p.content.isDirectory then none else some p.name
  files := if p.content.isDirectory then p.files.map PublishedFile.listed else []

end Publication

/-! ## The tree -/

variable {p : Publication}

theorem joinComponents_map (components : List Bytes) :
    joinComponents (components.map .str) = [chr '/'].intercalate components := by
  induction components with
  | nil => rfl
  | cons c cs ih =>
    cases cs with
    | nil => simp [joinComponents, bcodeStrVal, List.intercalate]
    | cons c' cs =>
      rw [List.map_cons, List.map_cons, joinComponents, ← List.map_cons, ih]
      · simp [bcodeStrVal, List.intercalate]
      · simp

theorem parseFileEntry_entry (file : PublishedFile) :
    ∃ entries, file.entry = .dict entries ∧ parseFileEntry entries = file.listed := by
  refine ⟨_, rfl, ?_⟩
  have hlength : bcodeDictGet [(lit "length", .int file.content.length),
      (lit "path", .list (file.components.map .str))] (lit "length") =
        some (.int file.content.length) := rfl
  have hpath : bcodeDictGet [(lit "length", .int file.content.length),
      (lit "path", .list (file.components.map .str))] (lit "path") =
        some (.list (file.components.map .str)) := rfl
  rw [parseFileEntry, hlength, hpath, PublishedFile.listed]
  dsimp only
  rw [joinComponents_map]
  rfl

theorem length_flatMap_content (files : List PublishedFile) :
    (files.flatMap PublishedFile.content).length =
      total (List.length ∘ PublishedFile.content) files := by
  rw [List.length_flatMap]
  rfl

/-- The list of files is read back. -/
theorem parseFiles_map (files : List PublishedFile) {start : ℤ}
    (hle : start + (files.flatMap PublishedFile.content).length ≤ INT64_MAX) :
    parseFiles (files.map PublishedFile.entry) start =
      some (files.map PublishedFile.listed,
        start + (files.flatMap PublishedFile.content).length) := by
  induction files generalizing start with
  | nil => simp [parseFiles]
  | cons file files ih =>
    obtain ⟨entries, hentry, hfile⟩ := parseFileEntry_entry file
    rw [List.flatMap_cons, List.length_append, Nat.cast_add] at hle ⊢
    have hfits : ¬(file.listed.length < 0 ∨ file.listed.length > INT64_MAX - start) := by
      change ¬((file.content.length : ℤ) < 0 ∨ (file.content.length : ℤ) > INT64_MAX - start)
      omega
    have hrest : start + file.content.length + (files.flatMap PublishedFile.content).length ≤
        INT64_MAX := by omega
    rw [List.map_cons, hentry, parseFiles, hfile]
    dsimp only
    rw [if_neg hfits, PublishedFile.listed]
    dsimp only
    rw [ih hrest, Option.map_some, List.map_cons, PublishedFile.listed, Int.add_assoc]

namespace Publication

theorem length_payload (p : Publication) :
    p.payload.length = total (List.length ∘ PublishedFile.content) p.files :=
  length_flatMap_content p.files

theorem isInt64_root (p : Publication) : IsInt64 (.dict p.root) := by
  have hstrs (strs : List Bytes) : IsInt64 (.list (strs.map .str)) := by
    refine .list fun item hitem => ?_
    obtain ⟨s, -, rfl⟩ := List.mem_map.1 hitem
    exact .str s
  have hnat {n : ℕ} (hn : (n : ℤ) ≤ INT64_MAX) : IsInt64 (.int n) :=
    .int (le_trans (by decide) (Int.natCast_nonneg n)) hn
  have hfile {file : PublishedFile} (hfile : file ∈ p.files) :
      (file.content.length : ℤ) ≤ INT64_MAX := by
    obtain ⟨j, hj⟩ := List.mem_iff_getElem?.1 hfile
    have hle := total_take_add_le (List.length ∘ PublishedFile.content) hj
    have hpayload := p.payload_le
    rw [files, Function.comp_apply] at hle
    omega
  have hcontent : IsInt64 p.content.entry.2 := by
    rw [files] at hfile
    generalize p.content = content at hfile
    cases content with
    | single content => exact hnat (hfile (List.mem_singleton_self _))
    | directory files =>
      refine .list fun item hitem => ?_
      obtain ⟨file, hmem, rfl⟩ := List.mem_map.1 hitem
      refine .dict (List.forall_mem_cons.2 ⟨hnat (hfile hmem), List.forall_mem_cons.2
        ⟨hstrs _, List.forall_mem_nil _⟩⟩)
  have hinfo : IsInt64 (.dict p.info) :=
    .dict (List.forall_mem_cons.2 ⟨hcontent, List.forall_mem_cons.2 ⟨.str _,
      List.forall_mem_cons.2 ⟨hnat p.pieceLength_le, List.forall_mem_cons.2 ⟨.str _,
        List.forall_mem_nil _⟩⟩⟩⟩)
  have htiers : IsInt64 (.list (p.announceList.map fun tier => .list (tier.map .str))) := by
    refine .list fun item hitem => ?_
    obtain ⟨tier, -, rfl⟩ := List.mem_map.1 hitem
    exact hstrs tier
  exact .dict (List.forall_mem_cons.2 ⟨.str _, List.forall_mem_cons.2 ⟨htiers,
    List.forall_mem_cons.2 ⟨hinfo, List.forall_mem_cons.2 ⟨hstrs _, List.forall_mem_nil _⟩⟩⟩⟩)

theorem bcodeParse_metainfo (hlength : p.metainfo.length ≤ PTRDIFF_MAX) :
    bcodeParse p.metainfo = some (.dict p.root) := by
  have hloose := (p.isInt64_root.parses []).loose (by rwa [List.append_nil])
  rw [List.append_nil] at hloose
  exact (bcodeParse_eq_some_iff hlength).2 ⟨[], hloose⟩

/-! ## The fields -/

theorem parseAnnounceList_root (p : Publication) :
    parseAnnounceList p.root = p.announceList.flatten := by
  have hget : bcodeDictGet p.root (lit "announce-list") =
      some (.list (p.announceList.map fun tier => .list (tier.map .str))) := rfl
  rw [parseAnnounceList, hget]
  dsimp only
  rw [List.flatMap_map, ← List.flatMap_id']
  refine List.flatMap_congr fun tier _ => ?_
  dsimp only
  rw [List.filterMap_map]
  exact List.filterMap_some

theorem parseUrlList_root (p : Publication) :
    parseUrlList p.root = p.webSeeds.filter fun url => url.length ≠ 0 := by
  have hget : bcodeDictGet p.root (lit "url-list") = some (.list (p.webSeeds.map .str)) := rfl
  have hstrs : (p.webSeeds.map BcodeNode.str).filterMap bcodeStrVal = p.webSeeds := by
    rw [List.filterMap_map]
    exact List.filterMap_some
  rw [parseUrlList, hget]
  dsimp only
  rw [hstrs]

/-- The entries of the info dictionary are found, whichever way the files are given. -/
theorem bcodeDictGet_info (p : Publication) :
    bcodeDictGet p.info (lit "name") = some (.str p.name) ∧
    bcodeDictGet p.info (lit "piece length") = some (.int p.pieceLength) ∧
    bcodeDictGet p.info (lit "pieces") = some (.str p.hashes) := by
  rw [info]
  generalize p.content = content
  cases content with
  | single content => exact ⟨rfl, rfl, rfl⟩
  | directory files => exact ⟨rfl, rfl, rfl⟩

def layout (p : Publication) : Layout :=
  if p.content.isDirectory then .multi (p.files.map PublishedFile.listed) p.payload.length
  else .single (some p.name) p.payload.length

theorem parseLayout_info (p : Publication) : parseLayout p.info = some p.layout := by
  have hname := p.bcodeDictGet_info.1
  have hfiles := p.files_le
  have hpayload := p.payload_le
  have hlength := p.length_payload
  rw [layout, payload, files] at *
  rw [info] at hname ⊢
  generalize p.content = content at *
  cases content with
  | single content =>
    have hget : bcodeDictGet [PublishedContent.entry (.single content), (lit "name", .str p.name),
        (lit "piece length", .int p.pieceLength), (lit "pieces", .str p.hashes)] (lit "files") =
          none := rfl
    have hlen : bcodeDictGet [PublishedContent.entry (.single content), (lit "name", .str p.name),
        (lit "piece length", .int p.pieceLength), (lit "pieces", .str p.hashes)] (lit "length") =
          some (.int content.length) := rfl
    have hone : [(⟨[p.name], content⟩ : PublishedFile)].flatMap PublishedFile.content = content :=
      List.append_nil content
    rw [parseLayout, hget, hname, hlen]
    dsimp only
    rw [PublishedContent.files, hone]
    rfl
  | directory files =>
    have hget : bcodeDictGet [PublishedContent.entry (.directory files), (lit "name", .str p.name),
        (lit "piece length", .int p.pieceLength), (lit "pieces", .str p.hashes)] (lit "files") =
          some (.list (files.map PublishedFile.entry)) := rfl
    rw [parseLayout, hget]
    dsimp only
    rw [if_neg (by rw [List.length_map]; exact not_lt.2 hfiles),
      parseFiles_map files (by rw [Int.zero_add, length_flatMap_content]; exact hpayload),
      Int.zero_add]
    rfl

/-! ## The metainfo -/

theorem length_hashes (p : Publication) : p.hashes.length = SHA1_DIGEST_SIZE * p.numPieces := by
  rw [hashes, Records.length_flatMap fun _ => length_sha1Hash _, List.length_range]

theorem ofDicts_eq (p : Publication) : Torrent.ofDicts p.root p.info p.layout = p.torrent := by
  have hannounce : bcodeDictGet p.root (lit "announce") = some (.str p.announce) := rfl
  obtain ⟨hname, hlength, hpieces⟩ := p.bcodeDictGet_info
  have hnum : p.hashes.length / SHA1_DIGEST_SIZE = p.numPieces := by
    rw [length_hashes]
    exact Nat.mul_div_cancel_left _ (by decide)
  have hbind (s : Bytes) : (some (BcodeNode.str s)).bind bcodeStrVal = some s := rfl
  have hint (n : ℤ) : ((some (BcodeNode.int n)).map bcodeIntVal).getD 0 = n := rfl
  simp only [Torrent.ofDicts, torrent, hannounce, hname, hlength, hpieces, parseAnnounceList_root,
    parseUrlList_root, hbind, hint, Option.getD_some, hnum, layout]
  cases p.content.isDirectory with
  | true => rfl
  | false => rfl

theorem geometryOk_torrent (p : Publication) : p.torrent.geometryOk := by
  have hpos : 0 < p.payload.length := by
    rw [length_payload]
    exact p.payload_pos
  have htotal : (0 : ℤ) < p.torrent.totalSize := Int.natCast_pos.2 hpos
  have hpl : (0 : ℤ) < p.torrent.pieceLength := Int.natCast_pos.2 p.pieceLength_pos
  have hnum : p.torrent.numPieces = p.torrent.totalSize.toNat ⌈/⌉ p.torrent.pieceLength.toNat := rfl
  have hmod : p.torrent.piecesLen % SHA1_DIGEST_SIZE = 0 := by
    change p.hashes.length % SHA1_DIGEST_SIZE = 0
    rw [length_hashes, Nat.mul_mod_right]
  simp only [Torrent.geometryOk, Bool.and_eq_true, decide_eq_true_eq]
  exact ⟨⟨⟨⟨⟨rfl, rfl⟩, hpl⟩, htotal⟩, hmod⟩, hnum.trans (numPieces_eq_ceilDiv hpl htotal).symm⟩

/-- The metainfo is accepted. -/
theorem torrentParse_eq (hlength : p.metainfo.length ≤ PTRDIFF_MAX) :
    torrentParse p.metainfo = some p.torrent := by
  have hinfo : bcodeDictGet p.root (lit "info") = some (.dict p.info) := rfl
  have hok := p.geometryOk_torrent
  simp only [torrentParse, bcodeParse_metainfo hlength, hinfo, parseLayout_info, ofDicts_eq, hok,
    Option.bind_eq_bind, Option.bind_some, if_true]

theorem geometry (hlength : p.metainfo.length ≤ PTRDIFF_MAX) : p.torrent.Geometry :=
  geometry_of_torrentParse (torrentParse_eq hlength)

/-! ## The payload -/

theorem pieceData_payload (p : Publication) (index : ℕ) :
    p.torrent.pieceData p.payload index = p.piece index := by
  change (p.payload.drop (index * p.pieceLength)).take
    (min p.pieceLength (p.payload.length - index * p.pieceLength)) = p.piece index
  rw [piece, List.take_eq_take_min (i := p.pieceLength), List.length_drop]

theorem describes_payload (p : Publication) : p.torrent.Describes p.payload := by
  refine ⟨(Int.toNat_natCast _).symm, fun index hindex => ?_⟩
  have hget : (List.range p.numPieces)[index]? = some index := List.getElem?_range hindex
  have hrecord := Records.take_drop_flatMap
    (fun _ => length_sha1Hash _ : ∀ index, (sha1Hash (p.piece index)).length = SHA1_DIGEST_SIZE) hget
  rw [pieceData_payload, ← hrecord, Nat.mul_comm]
  rfl

theorem files_of_single (h : p.content.isDirectory = false) :
    ∃ content, p.files = [⟨[p.name], content⟩] := by
  rw [files]
  generalize p.content = content at h
  cases content with
  | single content => exact ⟨content, rfl⟩
  | directory files => cases h

theorem outputs_torrent (p : Publication) :
    p.torrent.outputs = p.files.map PublishedFile.listed := by
  rw [Torrent.outputs]
  cases hdir : p.content.isDirectory with
  | true => exact (if_pos hdir).trans (if_pos hdir)
  | false =>
    have hsingle : ¬p.content.isDirectory = true := by simp [hdir]
    obtain ⟨content, hfiles⟩ := files_of_single hdir
    have hname : p.torrent.outputName = some p.name := by
      rw [Torrent.outputName, show p.torrent.fileName = some p.name from if_neg hsingle]
      rfl
    have hlength : p.torrent.length = content.length := by
      rw [show p.torrent.length = p.payload.length from if_neg hsingle, payload, hfiles,
        List.flatMap_singleton]
    rw [hname, hlength, hfiles]
    refine (if_neg hsingle).trans ?_
    simp [PublishedFile.listed, List.intercalate]

/-- A file is the part of the contents that begins where the files before it end. -/
theorem take_drop_content {files : List PublishedFile} {j : ℕ} {file : PublishedFile}
    (hj : files[j]? = some file) : ((files.flatMap PublishedFile.content).drop
      (total TorrentFile.size ((files.map PublishedFile.listed).take j))).take file.content.length =
        file.content := by
  induction files generalizing j with
  | nil => simp at hj
  | cons first files ih =>
    cases j with
    | zero =>
      rw [List.getElem?_cons_zero, Option.some.injEq] at hj
      subst hj
      rw [List.take_zero, total_nil, List.drop_zero, List.flatMap_cons, List.take_left]
    | succ j =>
      rw [List.getElem?_cons_succ] at hj
      have hsize : first.listed.size = first.content.length := Int.toNat_natCast _
      rw [List.map_cons, List.take_succ_cons, total_cons, hsize, List.flatMap_cons,
        List.drop_length_add_append]
      exact ih hj

theorem outputSlice_payload {j : ℕ} {file : PublishedFile} (hj : p.files[j]? = some file) :
    p.torrent.outputSlice p.payload j file.listed = file.content := by
  have hsize : file.listed.size = file.content.length := Int.toNat_natCast _
  rw [Torrent.outputSlice, outputs_torrent, hsize]
  exact take_drop_content hj

end Publication

/-- The metainfo of a publication is read as it was meant, whatever bytes its names and contents
    consist of: it is accepted with all fields, it describes the payload, and it lists each file
    with its path and its part of the payload. -/
theorem torrentParse_metainfo (p : Publication) (hlength : p.metainfo.length ≤ PTRDIFF_MAX) :
    torrentParse p.metainfo = some p.torrent ∧ p.torrent.Geometry ∧ p.torrent.Describes p.payload ∧
      p.torrent.outputs = p.files.map PublishedFile.listed ∧
      ∀ (j : ℕ) (file : PublishedFile), p.files[j]? = some file →
        p.torrent.outputSlice p.payload j file.listed = file.content :=
  ⟨p.torrentParse_eq hlength, p.geometry hlength, p.describes_payload, p.outputs_torrent,
    fun _ _ hj => p.outputSlice_payload hj⟩

/-! ### A directory -/

/-- A directory of two files, cut into pieces of four bytes. -/
def albumPublication : Publication where
  name := lit "album"
  content := .directory [⟨[lit "a", lit "b.txt"], lit "abc"⟩, ⟨[lit "c.txt"], lit "de"⟩]
  pieceLength := 4
  announce := lit "http://t/a"
  announceList := [[lit "http://t/a"], [lit "udp://u:1"]]
  webSeeds := [lit "http://w/"]
  payload_pos := by decide
  payload_le := by decide
  files_le := by decide
  pieceLength_pos := by decide
  pieceLength_le := by decide

theorem torrentParse_metainfo_album :
    torrentParse albumPublication.metainfo = some albumPublication.torrent ∧
      albumPublication.torrent.Geometry ∧
      albumPublication.torrent.Describes albumPublication.payload ∧
      albumPublication.torrent.outputs = albumPublication.files.map PublishedFile.listed ∧
      ∀ (j : ℕ) (file : PublishedFile), albumPublication.files[j]? = some file →
        albumPublication.torrent.outputSlice albumPublication.payload j file.listed = file.content :=
  torrentParse_metainfo albumPublication (by decide +kernel)

end PS5Torrent
