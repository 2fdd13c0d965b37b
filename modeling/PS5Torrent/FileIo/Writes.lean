import PS5Torrent.FileIo.Contents

/-!
# The writes of a piece

Which system calls the writer makes for a piece of a multi-file torrent. A
range of the piece's bytes meets the files in parts; for each file it meets in
at least one byte the writer makes one write, of the intersection, at its
offset in the file, in the order of the files, and none for any other file
(`fileWriterWritePiece_writes`). It fails exactly if one of these system calls
does, or if the path of such a file does not fit the path buffer.
-/

namespace PS5Torrent

open LexPath FileSystem FileLayout Effect

variable {s s' : Sys}

/-- The descriptor, offset and data of a write. -/
def Syscall.asWrite : Syscall → Option (Fd × ℕ × Bytes)
  | .write fd off data => some (fd, off, data)
  | .mkdir _ | .stat _ | .openFile .. | .lseek .. => none

/-- The writes made, from the first one on. -/
def Sys.writes (s : Sys) : List (Fd × ℕ × Bytes) := s.calls.reverse.filterMap Syscall.asWrite

/-- No write is made. -/
def SameWrites (s s' : Sys) : Prop := s'.writes = s.writes

instance : IsPreorder Sys SameWrites where
  refl _ := rfl
  trans _ _ _ h h' := h'.trans h

/-! ## One call -/

theorem writes_syscall {α : Type} {c : Syscall} {run : Option ℕ → Fs → Except Errno (α × Fs)} :
    (final (syscall c run) s).writes = s.writes ++ c.asWrite.toList := by
  have hcalls : Respects (fun s s' => s'.calls = c :: s.calls) (syscall c run) :=
    respects_syscall (fun _ _ => rfl) fun _ _ _ _ _ => rfl
  rw [Sys.writes, hcalls s, List.reverse_cons, List.filterMap_append, Sys.writes]
  cases hc : c.asWrite <;> simp [hc]

theorem sameWrites_mkdir (path : Bytes) : Respects SameWrites (mkdir path) := fun s => by
  rw [SameWrites, mkdir, writes_syscall]
  exact List.append_nil _

theorem sameWrites_openFile (path : Bytes) (trunc : Bool) :
    Respects SameWrites (openFile path trunc) := fun s => by
  rw [SameWrites, openFile, writes_syscall]
  exact List.append_nil _

theorem sameWrites_lseek (fd : Fd) (off : ℤ) : Respects SameWrites (lseek fd off) := fun s => by
  rw [SameWrites, lseek, writes_syscall]
  exact List.append_nil _

theorem writes_write (fd : Fd) (off : ℕ) (data : Bytes) (s : Sys) :
    (final (write fd off data) s).writes = s.writes ++ [(fd, off, data)] := by
  rw [write, writes_syscall]
  rfl

theorem sameWrites_mkdirIfAbsent (path : Bytes) : Respects SameWrites (mkdirIfAbsent path) :=
  (sameWrites_mkdir path).tryCatch fun _ => respects_get.bind fun _ =>
    respects_ite (fun _ => respects_throw _) fun _ => respects_pure _

theorem sameWrites_createParents (done rest : Bytes) :
    Respects SameWrites (createParents done rest) := by
  induction rest generalizing done with
  | nil => exact respects_pure _
  | cons c rest ih =>
    exact respects_ite (fun _ => ih _) fun _ => (sameWrites_mkdirIfAbsent done).bind fun _ => ih _

/-- Creating directories writes to no file. -/
theorem sameWrites_createParentDirectories (path : Bytes) :
    Respects SameWrites (createParentDirectories path) := by
  cases path with
  | nil => exact respects_pure _
  | cons c rest => exact sameWrites_createParents _ _

/-! ## One part -/

variable {base data : Bytes} {part : FileLayout.Part TorrentFile}

/-- The write of a part of a piece, as it is made. -/
def partCall (base data : Bytes) (part : FileLayout.Part TorrentFile) : Fd × ℕ × Bytes :=
  (.file (outputPath base part.file), part.off, (data.drop part.pos).take part.len)

/-- The path of the file of a part fits the buffer, and all system calls for
    the part succeed: its directories are there or are made, the file is opened, the
    descriptor is moved to the offset of the part, and all its bytes are written. -/
def PartWritten (base data : Bytes) (part : FileLayout.Part TorrentFile) (s s' : Sys) : Prop :=
  ∃ full s₁ fd s₂ pos s₃, fullPath base (part.file.path.getD []) = some full ∧
    createParentDirectories full s = .ok () s₁ ∧ openFile full false s₁ = .ok fd s₂ ∧
    lseek fd part.off s₂ = .ok pos s₃ ∧
    write fd pos ((data.drop part.pos).take part.len) s₃ =
      .ok ((data.drop part.pos).take part.len).length s'

/-- A part is written exactly if nothing that is done for it fails. -/
theorem writePart_eq_ok_iff (hsafe : safeRelativePath part.file.path) :
    actOn (writePart base data) part s = .ok () s' ↔ PartWritten base data part s s' := by
  rw [actOn, writePart, hsafe, if_neg (by simp), PartWritten]
  cases hfull : fullPath base (part.file.path.getD []) with
  | none =>
    refine iff_of_false throw_ne_ok ?_
    rintro ⟨full, -, -, -, -, -, hnone, -⟩
    cases hnone
  | some full =>
    dsimp only
    constructor
    · intro h
      obtain ⟨_, s₁, hparents, h⟩ := bind_eq_ok.1 h
      obtain ⟨fd, s₂, hopen, h⟩ := bind_eq_ok.1 h
      rw [seekWrite] at h
      obtain ⟨pos, s₃, hseek, h⟩ := bind_eq_ok.1 h
      obtain ⟨written, s₄, hwrite, h⟩ := bind_eq_ok.1 h
      split at h
      · exact absurd h throw_ne_ok
      rename_i hall
      push Not at hall
      subst hall
      obtain ⟨-, rfl⟩ := pure_eq_ok.1 h
      exact ⟨full, s₁, fd, s₂, pos, s₃, rfl, hparents, hopen, hseek, hwrite⟩
    · rintro ⟨full', s₁, fd, s₂, pos, s₃, hfull', hparents, hopen, hseek, hwrite⟩
      obtain rfl := Option.some.inj hfull'
      refine bind_eq_ok.2 ⟨(), s₁, hparents, bind_eq_ok.2 ⟨fd, s₂, hopen, ?_⟩⟩
      rw [seekWrite]
      refine bind_eq_ok.2 ⟨pos, s₃, hseek, bind_eq_ok.2 ⟨_, s', hwrite, ?_⟩⟩
      rw [if_neg (by simp)]
      rfl

/-- A part that is written is written by one write. -/
theorem PartWritten.writes (h : PartWritten base data part s s') :
    s'.writes = s.writes ++ [partCall base data part] := by
  obtain ⟨full, s₁, fd, s₂, pos, s₃, hfull, hparents, hopen, hseek, hwrite⟩ := h
  obtain ⟨rfl, -⟩ := openFile_eq_ok hopen
  obtain ⟨-, rfl, -⟩ := lseek_eq_ok hseek
  rw [← final_of_ok hwrite, writes_write, (sameWrites_lseek _ _).ok hseek,
    (sameWrites_openFile _ _).ok hopen, (sameWrites_createParentDirectories full).ok hparents,
    resolve_of_fullPath hfull, Int.toNat_natCast]
  rfl

theorem writes_seekWrite (fd : Fd) (off : ℕ) (data : Bytes) (s : Sys) :
    ∃ done, done <+: [(fd, off, data)] ∧
      (final (seekWrite fd off data) s).writes = s.writes ++ done := by
  rw [seekWrite]
  cases hseek : lseek fd off s with
  | error e s₁ =>
    rw [final_bind_of_error hseek, (sameWrites_lseek _ _).error hseek]
    exact ⟨[], List.nil_prefix, (List.append_nil _).symm⟩
  | ok pos s₁ =>
    have hpos : off = pos := (lseek_eq_ok hseek).2.1.symm
    subst hpos
    have hmade := writes_write fd off data s₁
    rw [(sameWrites_lseek _ _).ok hseek] at hmade
    refine ⟨_, List.prefix_rfl, ?_⟩
    rw [final_bind_of_ok hseek, ← hmade]
    cases hwrite : write fd off data s₁ with
    | error e s₂ => rw [final_bind_of_error hwrite, final_of_error hwrite]
    | ok written s₂ =>
      rw [final_bind_of_ok hwrite, final_of_ok hwrite]
      split <;> rfl

/-- Whatever fails, nothing but the write of the part is made. -/
theorem writes_writePart (base data : Bytes) (part : FileLayout.Part TorrentFile) (s : Sys) :
    ∃ done, done <+: [partCall base data part] ∧
      (final (actOn (writePart base data) part) s).writes = s.writes ++ done := by
  have hnone : ∃ done, done <+: [partCall base data part] ∧ s.writes = s.writes ++ done :=
    ⟨[], List.nil_prefix, (List.append_nil _).symm⟩
  rw [actOn, writePart]
  split
  · exact hnone
  cases hfull : fullPath base (part.file.path.getD []) with
  | none => exact hnone
  | some full =>
  dsimp only
  cases hparents : createParentDirectories full s with
  | error e s₁ =>
    rw [final_bind_of_error hparents, (sameWrites_createParentDirectories full).error hparents]
    exact hnone
  | ok _ s₁ =>
  rw [final_bind_of_ok hparents]
  have hsame := (sameWrites_createParentDirectories full).ok hparents
  cases hopen : openFile full false s₁ with
  | error e s₂ =>
    rw [final_bind_of_error hopen, (sameWrites_openFile _ _).error hopen, hsame]
    exact hnone
  | ok fd s₂ =>
  obtain ⟨rfl, -⟩ := openFile_eq_ok hopen
  rw [final_bind_of_ok hopen, ← hsame, ← (sameWrites_openFile _ _).ok hopen,
    resolve_of_fullPath hfull]
  exact writes_seekWrite _ _ _ _

/-! ## A piece -/

/-- The parts are written in their order, as far as nothing fails. -/
theorem writes_forM_writePart {parts : List (FileLayout.Part TorrentFile)}
    (hsafe : ∀ part ∈ parts, safeRelativePath part.file.path) (s : Sys) :
    ∃ done, done <+: parts.map (partCall base data) ∧
      (final (parts.forM (actOn (writePart base data))) s).writes = s.writes ++ done := by
  induction parts generalizing s with
  | nil => exact ⟨[], List.nil_prefix, (List.append_nil _).symm⟩
  | cons part parts ih =>
    have hcons : (part :: parts).forM (actOn (writePart base data)) =
      actOn (writePart base data) part >>= fun _ => parts.forM (actOn (writePart base data)) := rfl
    rw [hcons]
    cases hpart : actOn (writePart base data) part s with
    | error e s₁ =>
      obtain ⟨done, hdone, hwrites⟩ := writes_writePart base data part s
      rw [final_of_error hpart] at hwrites
      rw [final_bind_of_error hpart]
      exact ⟨done, hdone.trans (List.prefix_append [_] _), hwrites⟩
    | ok _ s₁ =>
      obtain ⟨done, hdone, hwrites⟩ := ih (fun p hp => hsafe p (List.mem_cons_of_mem _ hp)) s₁
      have hwritten := (writePart_eq_ok_iff (hsafe part List.mem_cons_self)).1 hpart
      refine ⟨partCall base data part :: done, List.cons_prefix_cons.2 ⟨rfl, hdone⟩, ?_⟩
      rw [final_bind_of_ok hpart, hwrites, hwritten.writes, List.append_assoc]
      rfl

/-- Parts that are all written are written by one write each. -/
theorem writes_of_chain {parts : List (FileLayout.Part TorrentFile)}
    (h : Chain (PartWritten base data) parts s s') :
    s'.writes = s.writes ++ parts.map (partCall base data) := by
  induction h with
  | nil s => exact (List.append_nil _).symm
  | cons hpart _ ih =>
    rw [ih, hpart.writes, List.append_assoc]
    rfl

/-- The part of the file at an index that a piece's data covers. -/
def Torrent.partOfFile (t : Torrent) (index : ℕ) (data : Bytes) (j : ℕ) :
    Option (FileLayout.Part TorrentFile) :=
  partAt TorrentFile.size (t.pieceStart index) (t.pieceStart index + data.length) t.files 0 j

/-- The parts that a piece's data covers, in the order of the files. -/
def Torrent.coveredParts (t : Torrent) (index : ℕ) (data : Bytes) :
    List (FileLayout.Part TorrentFile) :=
  (List.range t.files.length).filterMap (t.partOfFile index data)

section Multi

variable {t : Torrent} {fw : FileWriter} {index : ℕ}

/-- The writer goes through the parts the data covers. -/
theorem fileWriterWritePiece_multi (hfw : fw.For t base) (hmulti : t.isMultiFile)
    (hfiles : ∀ file ∈ t.files, 0 ≤ file.length) (hpiece : 0 ≤ t.pieceLength)
    (htotal : (total TorrentFile.size t.files : ℤ) ≤ INT64_MAX)
    (hend : index * t.pieceLength + data.length ≤ total TorrentFile.size t.files) :
    fileWriterWritePiece fw data index =
      (t.coveredParts index data).forM (actOn (writePart (cstr base) data)) := by
  have hint (x : ℤ) (hl : 0 ≤ x) (hu : x ≤ INT64_MAX) :
      (pure (toInt64 x) : SysM ℤ) = pure x := by
    rw [toInt64_of_mem (by simp [INT64_MIN]; omega) hu]
  have hstart : (index : ℤ) * t.pieceLength = t.pieceStart index := by
    rw [Torrent.pieceStart, Nat.cast_mul, Int.toNat_of_nonneg hpiece]
  rw [hstart] at hend
  rw [fileWriterWritePiece, hfw.torrent_eq]
  dsimp only
  rw [writePiece, hfw.multiFile_eq, hmulti, hfw.basePath_eq, Option.getD_some, hstart,
    hint _ (by omega) (by omega), pure_bind, if_neg (by simp), hint _ (by omega) (by omega),
    pure_bind]
  have hcovered : t.coveredParts index data = (parts TorrentFile.size (t.pieceStart index)
      (t.pieceStart index + data.length) t.files 0).filter fun part => 0 < part.len :=
    (filter_parts TorrentFile.size _ _ t.files 0).symm
  rw [hcovered]
  by_cases hdata : data.length = 0
  case pos =>
    -- No data, no part: the loop ends before the first file.
    have hnone : ((parts TorrentFile.size (t.pieceStart index) (t.pieceStart index + data.length)
        t.files 0).filter fun part => 0 < part.len) = [] := by
      refine List.filter_eq_nil_iff.2 fun part hpart => ?_
      obtain ⟨pre, file, post, -, -, -, rfl⟩ := mem_parts.1 hpart
      simp only [partOf, hdata]
      simp
    rw [hnone, hdata]
    cases t.files with
    | nil => rfl
    | cons file files => rfl
  case neg =>
    have heq := writeFiles_eq (writePart (cstr base) data) (t.pieceStart index)
      (t.pieceStart index + data.length) hint (by omega) (by omega) t.files 0 hfiles (by omega)
    rw [Nat.min_zero, Nat.zero_sub, Nat.add_sub_cancel_left, Nat.cast_zero, Nat.cast_add] at heq
    exact heq

theorem partWritten_cstr : PartWritten (cstr base) data = PartWritten base data := by
  funext part s s'
  simp only [PartWritten, fullPath, cstr_cstr]

theorem partCall_cstr : partCall (cstr base) data = partCall base data :=
  funext fun part => by rw [partCall, outputPath_cstr, partCall]

theorem partAt_of_mem_coveredParts {part : FileLayout.Part TorrentFile}
    (h : part ∈ t.coveredParts index data) : ∃ j, t.partOfFile index data j = some part := by
  obtain ⟨j, -, hj⟩ := List.mem_filterMap.1 h
  exact ⟨j, hj⟩

/-- The parts the data covers are parts of files of the torrent. -/
theorem file_mem_of_mem_coveredParts {part : FileLayout.Part TorrentFile}
    (h : part ∈ t.coveredParts index data) : part.file ∈ t.files := by
  obtain ⟨j, hj⟩ := partAt_of_mem_coveredParts h
  obtain ⟨file, hfile, -, rfl⟩ := partAt_eq_some.1 hj
  exact List.mem_of_getElem? hfile

/-- The byte of the data that a part has for a position of the data. -/
theorem getElem?_partCall {part : FileLayout.Part TorrentFile} {k : ℕ} (hpos : part.pos ≤ k)
    (hlen : k < part.pos + part.len) : (partCall base data part).2.2[k - part.pos]? = data[k]? := by
  rw [partCall]
  dsimp only
  rw [List.getElem?_take_of_lt (by omega), List.getElem?_drop]
  congr 1
  omega

/-- The writer succeeds exactly if the paths of the files that the data covers
    fit and all system calls for them succeed. It then makes one write for
    each file whose range meets that of the data in a byte, of the
    intersection at its offset in the file, and no other; if something
    fails, it has made the first ones of these. Each byte of the data is in exactly
    one of the parts, at the place of its position in the payload. -/
theorem fileWriterWritePiece_writes (hfw : fw.For t base) (hmulti : t.isMultiFile)
    (hfiles : ∀ file ∈ t.files, 0 ≤ file.length) (hpiece : 0 ≤ t.pieceLength)
    (htotal : (total TorrentFile.size t.files : ℤ) ≤ INT64_MAX)
    (hend : index * t.pieceLength + data.length ≤ total TorrentFile.size t.files)
    (hsafe : ∀ file ∈ t.files, safeRelativePath file.path) (s : Sys) :
    (∀ s', fileWriterWritePiece fw data index s = .ok () s' ↔
      Chain (PartWritten base data) (t.coveredParts index data) s s') ∧
    (∀ s', fileWriterWritePiece fw data index s = .ok () s' →
      s'.writes = s.writes ++ (t.coveredParts index data).map (partCall base data)) ∧
    (∃ done, done <+: (t.coveredParts index data).map (partCall base data) ∧
      (final (fileWriterWritePiece fw data index) s).writes = s.writes ++ done) ∧
    ∀ k < data.length,
      (∃! j, ∃ part, t.partOfFile index data j = some part ∧ part.pos ≤ k ∧
        k < part.pos + part.len) ∧
      ∀ j part, t.partOfFile index data j = some part → part.pos ≤ k → k < part.pos + part.len →
        (partCall base data part).2.2[k - part.pos]? = data[k]? ∧
        total TorrentFile.size (t.files.take j) + (part.off + (k - part.pos)) =
          t.pieceStart index + k := by
  have heq := fileWriterWritePiece_multi hfw hmulti hfiles hpiece htotal hend
  have hsafe' : ∀ part ∈ t.coveredParts index data, safeRelativePath part.file.path :=
    fun part hpart => hsafe _ (file_mem_of_mem_coveredParts hpart)
  have hok : ∀ s', fileWriterWritePiece fw data index s = .ok () s' ↔
      Chain (PartWritten base data) (t.coveredParts index data) s s' := fun s' => by
    rw [heq, forM_eq_ok_iff, ← partWritten_cstr]
    exact ⟨.mono fun part hpart _ _ => (writePart_eq_ok_iff (hsafe' part hpart)).1,
      .mono fun part hpart _ _ => (writePart_eq_ok_iff (hsafe' part hpart)).2⟩
  have hstart : (index : ℤ) * t.pieceLength = t.pieceStart index := by
    rw [Torrent.pieceStart, Nat.cast_mul, Int.toNat_of_nonneg hpiece]
  rw [hstart] at hend
  refine ⟨hok, fun s' h => writes_of_chain ((hok s').1 h), ?_, fun k hk => ⟨?_, ?_⟩⟩
  · rw [heq, ← partCall_cstr]
    exact writes_forM_writePart hsafe' s
  · exact existsUnique_partAt (by omega) (Nat.zero_le _) (by omega)
  · intro j part hpart hpos hlen
    have hplace := partAt_position hpart hpos hlen
    rw [zero_add] at hplace
    exact ⟨getElem?_partCall hpos hlen, hplace⟩

end Multi

/-- The writes of the piece of a torrent with an empty file. -/
theorem fileWriterWritePiece_writes_emptyFile :
    ∃ (t : Torrent) (fw : FileWriter), torrentParse emptyFileTorrent = some t ∧
      ∀ s', fileWriterWritePiece fw (lit "x") 0 (sysWith []) = .ok () s' →
        s'.writes = (sysWith []).writes ++
          (t.coveredParts 0 (lit "x")).map (partCall (lit "/d") (lit "x")) := by
  obtain ⟨hparse, hsafe, hmulti, hfiles, hpiece, htotal, hend⟩ :
      (torrentParse emptyFileTorrent).isSome ∧
      (∀ file ∈ (parsed emptyFileTorrent).files, safeRelativePath file.path) ∧
      (parsed emptyFileTorrent).isMultiFile ∧
      (∀ file ∈ (parsed emptyFileTorrent).files, 0 ≤ file.length) ∧
      0 ≤ (parsed emptyFileTorrent).pieceLength ∧
      (total TorrentFile.size (parsed emptyFileTorrent).files : ℤ) ≤ INT64_MAX ∧
      ((0 : ℕ) : ℤ) * (parsed emptyFileTorrent).pieceLength + (lit "x").length ≤
        total TorrentFile.size (parsed emptyFileTorrent).files := by decide +kernel
  have hfw : FileWriter.For ⟨some (cstr (lit "/d")), some (parsed emptyFileTorrent), true, .closed⟩
      (parsed emptyFileTorrent) (lit "/d") := ⟨rfl, rfl, hmulti.symm, absurd hmulti⟩
  exact ⟨_, _, torrentParse_eq_parsed hparse,
    (fileWriterWritePiece_writes hfw hmulti hfiles hpiece htotal hend hsafe (sysWith [])).2.1⟩

/-- A torrent of a file whose path has eight components of 128 bytes. -/
def longPathTorrent : Bytes :=
  lit "d4:infod5:filesld6:lengthi1e4:pathl" ++
    (List.replicate 8 (lit "128:" ++ List.replicate 128 (chr 'a'))).flatten ++
      lit "eee4:name1:n12:piece lengthi1e6:pieces20:aaaaaaaaaaaaaaaaaaaaee"

/-- The paths are safe and no system call fails, since none is made; still the byte of the
    piece is not written, and the writer fails. -/
theorem fileWriterWritePiece_longPath :
    ∃ t fw s', torrentParse longPathTorrent = some t ∧
      (∀ file ∈ t.files, safeRelativePath file.path) ∧
      fileWriterInit true t (lit "/d") (sysWith []) = .ok fw (sysWith []) ∧
      (t.coveredParts 0 (lit "x")).length = 1 ∧
      fileWriterWritePiece fw (lit "x") 0 (sysWith []) = .error () s' ∧ s'.calls = [] := by
  obtain ⟨hparse, hsafe, hmulti, hcovered, hfails, hcalls⟩ :
      (torrentParse longPathTorrent).isSome ∧
      (∀ file ∈ (parsed longPathTorrent).files, safeRelativePath file.path) ∧
      (parsed longPathTorrent).isMultiFile ∧
      ((parsed longPathTorrent).coveredParts 0 (lit "x")).length = 1 ∧
      succeeds (fileWriterWritePiece ⟨some (cstr (lit "/d")), some (parsed longPathTorrent),
        true, .closed⟩ (lit "x") 0) (sysWith []) = false ∧
      (final (fileWriterWritePiece ⟨some (cstr (lit "/d")), some (parsed longPathTorrent),
        true, .closed⟩ (lit "x") 0) (sysWith [])).calls.length = 0 := by decide +kernel
  obtain ⟨⟨⟩, herror⟩ := exists_of_not_succeeds hfails
  exact ⟨_, _, _, torrentParse_eq_parsed hparse, hsafe, fileWriterInit_multi hmulti, hcovered,
    herror, List.length_eq_zero_iff.1 hcalls⟩

end PS5Torrent
