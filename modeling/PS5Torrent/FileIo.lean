import PS5Torrent.Syscall
import PS5Torrent.Torrent

/-!
# Output files

`file_io.c`: the writer of a torrent's output. A single file is opened, and
truncated, at the start, and stays open. The files of a multi-file torrent
are opened for each part of a piece that is written to them.

The offset arithmetic is written over the conversion of each result to
`off_t`, so that it can be run on the machine's integers (`toInt64`) and with
every result checked (`checked`).
-/

namespace PS5Torrent

open LexPath FileSystem

/-! ## Paths -/

/-- Whether a path component ends here. -/
def atComponentEnd : Bytes → Bool
  | [] => true
  | c :: _ => c = chr '/'

/-- The scan of a path for control characters and for the components `.` and
    `..`, with the character before. -/
def scanPath : Option UInt8 → Bytes → Bool
  | _, [] => true
  | prev, c :: rest =>
    if c < 0x20 ∨ (c = chr '.' ∧ (prev = none ∨ prev = some (chr '/')) ∧
        (atComponentEnd rest ∨ rest.head? = some (chr '.') ∧ atComponentEnd rest.tail)) then
      false
    else scanPath (some c) rest

def safeRelativePath : Option Bytes → Bool
  | none => false
  | some path => cstr path ≠ [] && (cstr path).head? ≠ some (chr '/') && scanPath none (cstr path)

/-- `snprintf(full_path, 1024, "%s/%s", base, path)`, if it fits. -/
def fullPath (base path : Bytes) : Option Bytes :=
  let full := cstr base ++ chr '/' :: cstr path
  if full.length < 1024 then some full else none

/-- Make a directory that may exist already. -/
def mkdirIfAbsent (path : Bytes) : SysM Unit :=
  tryCatch (mkdir path) fun _ => do
    if (← get).errno ≠ .EEXIST then throw ()

/-- The loop of `create_parent_directories`, past the prefix `done`. -/
def createParents (done : Bytes) : Bytes → SysM Unit
  | [] => pure ()
  | c :: rest =>
    if c ≠ chr '/' then createParents (done ++ [c]) rest
    else do
      mkdirIfAbsent done
      createParents (done ++ [c]) rest

/-- Create the directories a path names before each slash but the first character. -/
def createParentDirectories : Bytes → SysM Unit
  | [] => pure ()
  | c :: rest => createParents [c] rest

/-! ## The writer -/

/-- The output of a torrent; `basePath` is `none` while the writer is not in use. -/
structure FileWriter where
  basePath : Option Bytes
  torrent : Option Torrent
  multiFile : Bool
  fd : Fd

namespace FileWriter

/-- The writer of a record that was not started, and a destroyed one. -/
def unused : FileWriter := ⟨none, none, false, .closed⟩

end FileWriter

/-- `file_writer_init`; on failure, the error is what is left of the writer. -/
def fileWriterInit (strdupOk : Bool) (t : Torrent) (base : Bytes) :
    EStateM FileWriter Sys FileWriter :=
  if !strdupOk then do
    setErrno .ENOMEM
    throw ⟨none, none, false, .zero⟩
  else
    let fw : FileWriter := ⟨some (cstr base), some t, t.isMultiFile, .closed⟩
    let failed : FileWriter := { fw with basePath := none }
    if fw.multiFile then pure fw
    else if !safeRelativePath t.outputName then do
      setErrno .EINVAL
      throw failed
    else match fullPath base (t.outputName.getD []) with
    | none => do
      setErrno .ENAMETOOLONG
      throw failed
    | some full => do
      let fd ← EStateM.adaptExcept (fun _ => failed) (openFile full true)
      return { fw with fd := fd }

section Arithmetic

variable {m : Type → Type} [Monad m] (int64 : ℤ → m ℤ)

/-- The loop of `file_writer_write_piece` over the files: `writePart file
    writeStart dataOffset writeLen` writes to a file. -/
def writeFiles (writePart : TorrentFile → ℤ → ℕ → ℕ → m Unit) (pieceStart pieceEnd : ℤ)
    (len : ℕ) :
    List TorrentFile → ℤ → ℕ → m Unit
  | [], _, _ => pure ()
  | file :: files, fileOffset, dataOffset => do
    if dataOffset < len then
      let fileStart := fileOffset
      let fileEnd ← int64 (fileOffset + file.length)
      if pieceStart < fileEnd ∧ pieceEnd > fileStart then
        let writeStart ← (if pieceStart > fileStart then int64 (pieceStart - fileStart) else pure 0)
        let writeEnd ←
          (if pieceEnd < fileEnd then int64 (pieceEnd - fileStart) else pure file.length)
        let difference ← int64 (writeEnd - writeStart)
        let writeLen := (toUInt64 difference).toNat
        if writeLen > 0 then
          writePart file writeStart dataOffset writeLen
          writeFiles writePart pieceStart pieceEnd len files fileEnd (dataOffset + writeLen)
        else writeFiles writePart pieceStart pieceEnd len files fileEnd dataOffset
      else writeFiles writePart pieceStart pieceEnd len files fileEnd dataOffset

/-- `file_writer_write_piece`, over what it does to write to the single file
    at an offset, or to one of several files. -/
def writePiece (writeSingle : ℤ → m Unit) (writePart : TorrentFile → ℤ → ℕ → ℕ → m Unit)
    (multiFile : Bool) (t : Torrent) (len index : ℕ) : m Unit := do
  let pieceStart ← int64 (index * t.pieceLength)
  if !multiFile then writeSingle pieceStart
  else
    let pieceEnd ← int64 (pieceStart + len)
    writeFiles int64 writePart pieceStart pieceEnd len t.files 0 0

end Arithmetic

/-- Write to an open file at an offset. -/
def seekWrite (fd : Fd) (offset : ℤ) (data : Bytes) : SysM Unit := do
  let pos ← lseek fd offset
  let written ← write fd pos data
  if written ≠ data.length then throw ()

/-- Write a part of a piece to one of the files. -/
def writePart (base : Bytes) (data : Bytes) (file : TorrentFile) (writeStart : ℤ)
    (dataOffset writeLen : ℕ) : SysM Unit :=
  if !safeRelativePath file.path then do
    setErrno .EINVAL
    throw ()
  else match fullPath base (file.path.getD []) with
  | none => throw ()
  | some full => do
    createParentDirectories full
    let fd ← openFile full false
    seekWrite fd writeStart ((data.drop dataOffset).take writeLen)

/-- Write the data of a piece. -/
def fileWriterWritePiece (fw : FileWriter) (data : Bytes) (index : ℕ) : SysM Unit :=
  match fw.torrent with
  | none => throw ()
  | some t =>
    writePiece (fun x => pure (toInt64 x)) (seekWrite fw.fd · data)
      (writePart (fw.basePath.getD []) data) fw.multiFile t data.length index

/-! ## Relations kept by the writer -/

section Respects

open Effect

variable {R : Sys → Sys → Prop} [IsPreorder Sys R]

theorem respects_writeFiles {writePart : TorrentFile → ℤ → ℕ → ℕ → SysM Unit}
    (pieceStart pieceEnd : ℤ) (len : ℕ) (files : List TorrentFile)
    (hpart : ∀ file ∈ files, ∀ writeStart dataOffset writeLen,
      Respects R (writePart file writeStart dataOffset writeLen))
    (fileOffset : ℤ) (dataOffset : ℕ) :
    Respects R (writeFiles (fun x => pure (toInt64 x)) writePart pieceStart pieceEnd len files
      fileOffset dataOffset) := by
  induction files generalizing fileOffset dataOffset with
  | nil => exact respects_pure _
  | cons file files ih =>
    replace ih := ih fun file hfile => hpart file (List.mem_cons_of_mem _ hfile)
    refine respects_ite (fun _ => ?_) fun _ => respects_pure _
    refine (respects_pure _).bind fun fileEnd => ?_
    refine respects_ite (fun _ => ?_) fun _ => ih _ _
    refine (respects_ite (fun _ => respects_pure _) fun _ => respects_pure _).bind fun writeStart =>
      (respects_ite (fun _ => respects_pure _) fun _ => respects_pure _).bind fun writeEnd =>
        (respects_pure _).bind fun difference => ?_
    exact respects_ite (fun _ => (hpart file List.mem_cons_self _ _ _).bind fun _ => ih _ _)
      fun _ => ih _ _

/-- Writing a piece keeps what writing to each of the files keeps. -/
theorem respects_fileWriterWritePiece {fw : FileWriter} {data : Bytes} (index : ℕ)
    (hsingle : fw.multiFile = false → ∀ offset, Respects R (seekWrite fw.fd offset data))
    (hpart : fw.multiFile = true → ∀ t, fw.torrent = some t → ∀ file ∈ t.files,
      ∀ writeStart dataOffset writeLen,
        Respects R (writePart (fw.basePath.getD []) data file writeStart dataOffset writeLen)) :
    Respects R (fileWriterWritePiece fw data index) := by
  rw [fileWriterWritePiece]
  cases htorrent : fw.torrent with
  | none => exact respects_throw _
  | some t =>
    refine (respects_pure _).bind fun pieceStart => ?_
    refine respects_ite (fun hmulti => ?_) fun hmulti => ?_
    · rw [Bool.not_eq_true'] at hmulti
      exact hsingle hmulti _
    · rw [Bool.not_eq_true, Bool.not_eq_false'] at hmulti
      exact (respects_pure _).bind fun pieceEnd =>
        respects_writeFiles _ _ _ _ (hpart hmulti t htorrent) _ _

end Respects

/-- Close the single file. -/
def fileWriterFinish (fw : FileWriter) : FileWriter := { fw with fd := .closed }

def fileWriterDestroy (_ : FileWriter) : FileWriter := .unused

end PS5Torrent
