import PS5Torrent.FileIo.Parts

/-!
# The contents of the output

What a successful run of the writer does to the contents of the files: a
piece is put part by part into the files it covers (`content_of_writePiece`).
When all pieces have been written, the output is the payload
(`Torrent.OutputHolds`) exactly if the multi-file case meets no file it
cannot make right (`Torrent.OutputClean`): since it never truncates nor
creates a file but by writing to it, an old file may not be longer than the
new one, and an empty file must have been there before.
-/

namespace PS5Torrent

open LexPath FileSystem FileLayout Effect

variable {s s' : Sys}

/-! ## Successful calls -/

/-- The files keep their contents. -/
def SameContent (s s' : Sys) : Prop := s'.fs.content = s.fs.content

instance : IsPreorder Sys SameContent where
  refl _ := rfl
  trans _ _ _ h h' := h'.trans h

theorem sameContent_mkdir (path : Bytes) : Respects SameContent (mkdir path) :=
  respects_syscall (fun _ _ => rfl) fun s n a fs h => by
    split at h
    · rename_i hmk
      obtain ⟨-, rfl⟩ := Prod.mk.inj (Except.ok.inj h)
      exact funext (Fs.content_of_mkdir hmk)
    · cases h

theorem sameContent_mkdirIfAbsent (path : Bytes) : Respects SameContent (mkdirIfAbsent path) :=
  (sameContent_mkdir path).tryCatch fun _ => respects_get.bind fun _ =>
    respects_ite (fun _ => respects_throw _) fun _ => respects_pure _

/-- Creating directories changes the content of no file. -/
theorem sameContent_createParents (done rest : Bytes) :
    Respects SameContent (createParents done rest) := by
  induction rest generalizing done with
  | nil => exact respects_pure _
  | cons c rest ih =>
    exact respects_ite (fun _ => ih _) fun _ => (sameContent_mkdirIfAbsent done).bind fun _ => ih _

theorem sameContent_createParentDirectories (path : Bytes) :
    Respects SameContent (createParentDirectories path) := by
  cases path with
  | nil => exact respects_pure _
  | cons c rest => exact sameContent_createParents _ _

/-- A successful `lseek` and `write` put the data in the file. -/
theorem content_of_seekWrite {fd : Fd} {off : ℤ} {data : Bytes}
    (h : seekWrite fd off data s = .ok () s') :
    ∃ p, fd = .file p ∧ s'.fs.content = put s.fs.content ⟨p, off.toNat, data⟩ := by
  obtain ⟨pos, s₁, hseek, h⟩ := bind_eq_ok.1 h
  obtain ⟨written, s₂, hwrite, h⟩ := bind_eq_ok.1 h
  split at h
  · exact absurd h throw_ne_ok
  rename_i hall
  push Not at hall
  subst hall
  obtain ⟨-, rfl⟩ := pure_eq_ok.1 h
  obtain ⟨-, rfl, hfs⟩ := lseek_eq_ok hseek
  obtain ⟨p, rfl, hfs'⟩ := write_eq_ok hwrite
  exact ⟨p, rfl, by rw [hfs', hfs, content_pwrite s.fs ⟨p, off.toNat, data⟩]⟩

/-- The path of an output file. -/
def outputPath (base : Bytes) (file : TorrentFile) : Path :=
  resolve (cstr base ++ chr '/' :: cstr (file.path.getD []))

theorem resolve_of_fullPath {base full : Bytes} {file : TorrentFile}
    (h : fullPath base (file.path.getD []) = some full) : resolve full = outputPath base file := by
  rw [fullPath, Option.ite_none_right_eq_some] at h
  rw [← Option.some.inj h.2, outputPath]

/-- The write of a part of a piece. -/
def partWrite (base data : Bytes) (part : FileLayout.Part TorrentFile) : Write :=
  ⟨outputPath base part.file, part.off, (data.drop part.pos).take part.len⟩

theorem content_of_writePart {base data : Bytes} {part : FileLayout.Part TorrentFile}
    (h : actOn (writePart base data) part s = .ok () s') :
    s'.fs.content = put s.fs.content (partWrite base data part) := by
  rw [actOn, writePart] at h
  split at h
  · obtain ⟨_, _, -, h⟩ := bind_eq_ok.1 h
    exact absurd h throw_ne_ok
  cases hfull : fullPath base (part.file.path.getD []) with
  | none =>
    rw [hfull] at h
    exact absurd h throw_ne_ok
  | some full =>
  rw [hfull] at h
  obtain ⟨_, s₁, hparents, h⟩ := bind_eq_ok.1 h
  obtain ⟨fd, s₂, hopen, h⟩ := bind_eq_ok.1 h
  obtain ⟨rfl, hcontent⟩ := openFile_eq_ok hopen
  obtain ⟨p, hp, hwrite⟩ := content_of_seekWrite h
  obtain rfl := Fd.file.inj hp
  have hsame : s₁.fs.content = s.fs.content := (sameContent_createParentDirectories full).ok hparents
  rw [hwrite, hcontent, if_neg Bool.false_ne_true, hsame, resolve_of_fullPath hfull, Int.toNat_natCast]
  exact put_update_getD

/-- A loop whose steps put a write each puts them all. -/
theorem content_of_forM {α : Type} {act : α → SysM Unit} {w : α → Write} {xs : List α}
    (h : xs.forM act s = .ok () s')
    (hact : ∀ x ∈ xs, ∀ s s', act x s = .ok () s' → s'.fs.content = put s.fs.content (w x)) :
    s'.fs.content = (xs.map w).foldl put s.fs.content := by
  induction xs generalizing s with
  | nil =>
    obtain ⟨-, rfl⟩ := pure_eq_ok.1 h
    rfl
  | cons x xs ih =>
    obtain ⟨s₁, hx, hxs⟩ := forM_cons_eq_ok.1 h
    rw [ih hxs fun y hy => hact y (List.mem_cons_of_mem _ hy), hact x List.mem_cons_self _ _ hx]
    rfl

/-! ## Pieces -/

/-- The writer is set up for the output of a torrent. -/
structure FileWriter.For (fw : FileWriter) (t : Torrent) (base : Bytes) : Prop where
  basePath_eq : fw.basePath = some (cstr base)
  torrent_eq : fw.torrent = some t
  multiFile_eq : fw.multiFile = t.isMultiFile
  fd_eq : ¬t.isMultiFile → fw.fd = .file (outputPath base ⟨t.outputName, t.length⟩)

/-- A single file is truncated when the writer is set up. -/
theorem fileWriterInit_eq_ok {strdupOk : Bool} {t : Torrent} {base : Bytes} {fw : FileWriter}
    (h : fileWriterInit strdupOk t base s = .ok fw s') :
    fw.For t base ∧ s'.fs.content = if t.isMultiFile then s.fs.content
      else Function.update s.fs.content (outputPath base ⟨t.outputName, t.length⟩) (some []) := by
  rw [fileWriterInit] at h
  split at h
  · obtain ⟨_, _, -, h⟩ := bind_eq_ok.1 h
    exact absurd h throw_ne_ok
  dsimp only at h
  split at h
  case isTrue hmulti =>
    obtain ⟨rfl, rfl⟩ := pure_eq_ok.1 h
    exact ⟨⟨rfl, rfl, rfl, absurd hmulti⟩, (if_pos hmulti).symm⟩
  case isFalse hmulti =>
  split at h
  · obtain ⟨_, _, -, h⟩ := bind_eq_ok.1 h
    exact absurd h throw_ne_ok
  cases hfull : fullPath base (t.outputName.getD []) with
  | none =>
    rw [hfull] at h
    obtain ⟨_, _, -, h⟩ := bind_eq_ok.1 h
    exact absurd h throw_ne_ok
  | some full =>
  rw [hfull] at h
  obtain ⟨fd, s₁, hopen, h⟩ := bind_eq_ok.1 h
  obtain ⟨rfl, rfl⟩ := pure_eq_ok.1 h
  obtain ⟨rfl, hcontent⟩ := openFile_eq_ok (adaptExcept_eq_ok.1 hopen)
  have hpath : resolve full = outputPath base ⟨t.outputName, t.length⟩ := resolve_of_fullPath hfull
  exact ⟨⟨rfl, rfl, rfl, fun _ => congrArg Fd.file hpath⟩, by
    rw [if_neg hmulti, hcontent, if_pos rfl, hpath]⟩

/-- Several files are not opened at the start. -/
theorem fileWriterInit_multi {t : Torrent} {base : Bytes} (h : t.isMultiFile) :
    fileWriterInit true t base s = .ok ⟨some (cstr base), some t, true, .closed⟩ s := by
  rw [fileWriterInit, if_neg (by simp)]
  dsimp only
  rw [if_pos h, h]
  rfl

theorem outputPath_cstr (base : Bytes) (file : TorrentFile) :
    outputPath (cstr base) file = outputPath base file := by
  rw [outputPath, cstr_cstr, outputPath]

theorem partWrite_cstr (base data : Bytes) : partWrite (cstr base) data = partWrite base data :=
  funext fun part => by rw [partWrite, outputPath_cstr, partWrite]

/-- The writes of the data of a piece. -/
def Torrent.pieceWrites (t : Torrent) (base data : Bytes) (index : ℕ) : List Write :=
  if t.isMultiFile then (t.pieceParts index).map (partWrite base data)
  else [⟨outputPath base ⟨t.outputName, t.length⟩, t.pieceStart index, data⟩]

/-- A successful write of a piece. -/
theorem content_of_writePiece {fw : FileWriter} {t : Torrent} {base data : Bytes} {index : ℕ}
    (hfw : fw.For t base) (hg : t.Geometry) (hindex : index < t.numPieces)
    (hdata : data.length = t.pieceSize index)
    (h : fileWriterWritePiece fw data index s = .ok () s') :
    s'.fs.content = (t.pieceWrites base data index).foldl put s.fs.content := by
  rw [fileWriterWritePiece, hfw.torrent_eq] at h
  dsimp only at h
  rw [hfw.multiFile_eq, hdata,
    writePiece_eq _ hg (fun x hl hu => by rw [toInt64_of_mem (by simp [INT64_MIN]; omega) hu]) _
      hindex] at h
  rw [Torrent.pieceWrites]
  split at h
  case isTrue hmulti =>
    rw [if_pos hmulti, content_of_forM h fun _ _ _ _ => content_of_writePart, hfw.basePath_eq,
      Option.getD_some, partWrite_cstr]
  case isFalse hmulti =>
    obtain ⟨p, hp, hcontent⟩ := content_of_seekWrite h
    obtain rfl := Fd.file.inj ((hfw.fd_eq hmulti).symm.trans hp)
    rw [if_neg hmulti, hcontent, Int.toNat_natCast]
    rfl

/-! ## The payload -/

/-- Every listed file exists, with its declared length and its part of the payload. -/
def Torrent.OutputHolds (t : Torrent) (base payload : Bytes) (f : Contents) : Prop :=
  ∀ j file, t.outputs[j]? = some file → f (outputPath base file) = some (t.outputSlice payload j file) ∧
    ((t.outputSlice payload j file).length : ℤ) = file.length

/-- What the output needs in order to come out right: in multi-file mode, a file
    that was there is not longer than declared, a file declared empty was there,
    and files under one path have the same bytes. -/
def Torrent.OutputClean (t : Torrent) (base payload : Bytes) (f : Contents) : Prop :=
  t.isMultiFile →
    (∀ file ∈ t.files, ∀ c, f (outputPath base file) = some c → c.length ≤ file.size) ∧
    (∀ file ∈ t.files, file.size = 0 → (f (outputPath base file)).isSome) ∧
    ∀ i j file file', t.files[i]? = some file → t.files[j]? = some file' →
      outputPath base file = outputPath base file' →
      t.outputSlice payload i file = t.outputSlice payload j file'

section Payload

variable {t : Torrent} {base payload : Bytes} {index j k : ℕ} {file : TorrentFile}

/-- The whole part of a file is written. -/
theorem length_partWrite {data : Bytes} {a n start : ℕ} (hdata : data.length = n) :
    (partWrite base data (partOf TorrentFile.size a (a + n) file start)).data.length =
      (partOf TorrentFile.size a (a + n) file start).len := by
  simp only [partWrite, partOf, List.length_take, List.length_drop]
  omega

/-- The write of a nonempty part of a file puts a part of the file's bytes in its place. -/
theorem isPartOf_partWrite {a n start : ℕ} (hdata : ((payload.drop a).take n).length = n)
    (hl : a < start + file.size) (hu : start < a + n) (hend : start + file.size ≤ payload.length)
    (hlen : 0 < (partOf TorrentFile.size a (a + n) file start).len) :
    (partWrite base ((payload.drop a).take n) (partOf TorrentFile.size a (a + n) file start)).IsPartOf
      ((payload.drop start).take file.size) := by
  simp only [partOf] at hlen
  refine ⟨?_, ?_⟩
  · rw [length_partWrite hdata, List.length_take, List.length_drop]
    simp only [partWrite, partOf]
    omega
  · rw [length_partWrite hdata]
    exact take_drop_partOf hl hu

/-- The writes of a piece put parts of the slices of nonempty files in their places. -/
theorem isPartOf_of_mem_pieceWrites (hg : t.Geometry) (hmulti : t.isMultiFile)
    (hpay : payload.length = t.totalSize.toNat) (hindex : index < t.numPieces) {w : Write}
    (hw : w ∈ t.pieceWrites base (t.pieceData payload index) index) :
    ∃ j file, t.files[j]? = some file ∧ 0 < file.size ∧ w.path = outputPath base file ∧
      w.IsPartOf (t.outputSlice payload j file) := by
  have hfiles : t.outputs = t.files := if_pos hmulti
  rw [Torrent.pieceWrites, if_pos hmulti] at hw
  obtain ⟨part, hpart, rfl⟩ := List.mem_map.1 hw
  obtain ⟨hpart, hlen⟩ := List.mem_filter.1 hpart
  obtain ⟨j, file, hj, hl, hu, rfl⟩ := mem_parts_iff_getElem?.1 hpart
  have hlen := of_decide_eq_true hlen
  have hend := hg.end_le (hfiles ▸ hj)
  rw [hfiles] at hend
  refine ⟨j, file, hj, ?_, rfl, ?_⟩
  · simp only [partOf] at hlen
    omega
  · rw [zero_add] at hlen ⊢
    rw [Torrent.outputSlice, hfiles]
    exact isPartOf_partWrite (length_pieceData hg hpay hindex) (by omega) (by omega) (by omega) hlen

/-- Every position of a nonempty file is covered by a write of a piece. -/
theorem exists_pieceWrites_covers (hg : t.Geometry) (hmulti : t.isMultiFile)
    (hpay : payload.length = t.totalSize.toNat) (hj : t.files[j]? = some file) (hk : k < file.size) :
    ∃ index < t.numPieces, ∃ w ∈ t.pieceWrites base (t.pieceData payload index) index,
      w.path = outputPath base file ∧ w.Covers k := by
  have hfiles : t.outputs = t.files := if_pos hmulti
  have hend := hg.end_le (hfiles ▸ hj)
  rw [hfiles] at hend
  -- The piece that holds the position counted from the start of the payload.
  obtain ⟨pos, hposition⟩ : ∃ pos, pos = total TorrentFile.size (t.files.take j) + k := ⟨_, rfl⟩
  obtain ⟨index, hindex, hl, hu⟩ := hg.exists_piece (show pos < t.totalSize.toNat by omega)
  have hdata := length_pieceData hg hpay hindex
  refine ⟨index, hindex, ?_⟩
  rw [Torrent.pieceWrites, if_pos hmulti]
  refine ⟨_, List.mem_map_of_mem (List.mem_filter.2 ⟨mem_parts_iff_getElem?.2
    ⟨j, file, hj, ?_, ?_, rfl⟩, ?_⟩), rfl, ?_, ?_⟩
  · omega
  · omega
  · refine decide_eq_true ?_
    simp only [partOf]
    omega
  · simp only [partWrite, partOf]
    omega
  · rw [length_partWrite hdata]
    simp only [partWrite, partOf]
    omega

/-! ## A whole download -/

/-- Write all pieces in some order. -/
def writeAll (fw : FileWriter) (t : Torrent) (payload : Bytes) (order : List ℕ) : SysM Unit :=
  order.forM fun index => fileWriterWritePiece fw (t.pieceData payload index) index

theorem content_of_writeAll {fw : FileWriter} {order : List ℕ} (hfw : fw.For t base)
    (hg : t.Geometry) (hpay : payload.length = t.totalSize.toNat)
    (horder : ∀ index ∈ order, index < t.numPieces) (h : writeAll fw t payload order s = .ok () s') :
    s'.fs.content = (order.flatMap fun index =>
      t.pieceWrites base (t.pieceData payload index) index).foldl put s.fs.content := by
  induction order generalizing s with
  | nil =>
    obtain ⟨-, rfl⟩ := pure_eq_ok.1 h
    rfl
  | cons index order ih =>
    obtain ⟨s₁, hpiece, hrest⟩ := forM_cons_eq_ok.1 h
    have hindex := horder index List.mem_cons_self
    rw [ih (fun i hi => horder i (List.mem_cons_of_mem _ hi)) hrest,
      content_of_writePiece hfw hg hindex (length_pieceData hg hpay hindex) hpiece,
      List.flatMap_cons, List.foldl_append]

/-- The single file comes out right, whatever was there. -/
theorem outputHolds_of_single {order : List ℕ} {f : Contents} (hg : t.Geometry)
    (hsingle : ¬t.isMultiFile) (hpay : payload.length = t.totalSize.toNat)
    (horder : ∀ index, index ∈ order ↔ index < t.numPieces)
    (hempty : f (outputPath base ⟨t.outputName, t.length⟩) = some []) :
    t.OutputHolds base payload ((order.flatMap fun index =>
      t.pieceWrites base (t.pieceData payload index) index).foldl put f) := by
  have hwrites : ∀ index, t.pieceWrites base (t.pieceData payload index) index =
      [⟨outputPath base ⟨t.outputName, t.length⟩, t.pieceStart index, t.pieceData payload index⟩] :=
    fun index => if_neg hsingle
  have hne : payload ≠ [] := List.ne_nil_of_length_pos (hpay ▸ hg.totalSize_pos)
  intro j file hj
  have hslice := length_outputSlice hg hpay hj
  have hfile := hg.length_nonneg (List.mem_of_getElem? hj)
  refine ⟨?_, by rw [hslice, TorrentFile.size]; omega⟩
  rw [Torrent.outputs, if_neg hsingle] at hj
  obtain ⟨rfl, rfl⟩ : j = 0 ∧ file = ⟨t.outputName, t.length⟩ := by
    obtain ⟨hlt, heq⟩ := List.getElem?_eq_some_iff.1 hj
    obtain rfl : j = 0 := by simpa using hlt
    exact ⟨rfl, heq.symm⟩
  have hpayload : t.outputSlice payload 0 ⟨t.outputName, t.length⟩ = payload := by
    rw [Torrent.outputSlice, List.take_zero, total_nil, List.drop_zero, TorrentFile.size,
      ← hg.single hsingle]
    exact List.take_of_length_le hpay.le
  rw [hpayload]
  refine foldl_put_eq hne (by rw [hempty]; exact Nat.zero_le _) ?_ ?_
  · intro w hw hpath
    obtain ⟨index, hindex, hw⟩ := List.mem_flatMap.1 hw
    have hlt := (horder index).1 hindex
    have hdata := length_pieceData hg hpay hlt
    have hend := Torrent.pieceStart_add_pieceSize_le (hg.lt_numPieces_iff.1 hlt).le
    rw [hwrites, List.mem_singleton] at hw
    subst hw
    refine ⟨?_, ?_⟩
    · dsimp only
      omega
    · dsimp only
      rw [hdata, Torrent.pieceData]
  · intro k hk
    obtain ⟨index, hindex, hl, hu⟩ := hg.exists_piece (hpay ▸ hk)
    have hdata := length_pieceData hg hpay hindex
    refine ⟨⟨outputPath base ⟨t.outputName, t.length⟩, t.pieceStart index,
      t.pieceData payload index⟩, List.mem_flatMap.2 ⟨index, (horder index).2 hindex, ?_⟩, rfl, hl,
      by rwa [hdata]⟩
    rw [hwrites, List.mem_singleton]

/-- The files of a multi-file torrent come out right exactly if the directory is clean. -/
theorem outputHolds_iff_of_multi {order : List ℕ} {f : Contents} (hg : t.Geometry)
    (hmulti : t.isMultiFile) (hpay : payload.length = t.totalSize.toNat)
    (horder : ∀ index, index ∈ order ↔ index < t.numPieces) :
    t.OutputHolds base payload ((order.flatMap fun index =>
      t.pieceWrites base (t.pieceData payload index) index).foldl put f) ↔
      t.OutputClean base payload f := by
  have hfiles : t.outputs = t.files := if_pos hmulti
  have hslice : ∀ {j : ℕ} {file : TorrentFile}, t.files[j]? = some file →
      (t.outputSlice payload j file).length = file.size :=
    fun hj => length_outputSlice hg hpay (hfiles ▸ hj)
  -- Each write belongs to a nonempty file.
  have hparts : ∀ w ∈ order.flatMap fun index =>
      t.pieceWrites base (t.pieceData payload index) index,
      ∃ j file, t.files[j]? = some file ∧ 0 < file.size ∧ w.path = outputPath base file ∧
        w.IsPartOf (t.outputSlice payload j file) := by
    intro w hw
    obtain ⟨index, hindex, hw⟩ := List.mem_flatMap.1 hw
    exact isPartOf_of_mem_pieceWrites hg hmulti hpay ((horder index).1 hindex) hw
  have hcover : ∀ (j : ℕ) (file : TorrentFile), t.files[j]? = some file → ∀ k < file.size,
      ∃ w ∈ order.flatMap fun index => t.pieceWrites base (t.pieceData payload index) index,
        w.path = outputPath base file ∧ w.Covers k := by
    intro j file hj k hk
    obtain ⟨index, hindex, w, hw, hwk⟩ := exists_pieceWrites_covers hg hmulti hpay hj hk
    exact ⟨w, List.mem_flatMap.2 ⟨index, (horder index).2 hindex, hw⟩, hwk⟩
  generalize (order.flatMap fun index =>
    t.pieceWrites base (t.pieceData payload index) index) = ws at hparts hcover ⊢
  rw [Torrent.OutputHolds, hfiles]
  constructor
  · intro hholds _
    refine ⟨fun file hfile c hc => ?_, fun file hfile hempty => ?_, ?_⟩
    · -- No write shortens a file.
      obtain ⟨j, hj⟩ := List.getElem?_of_mem hfile
      have hle : ((f (outputPath base file)).getD []).length ≤
          ((ws.foldl put f (outputPath base file)).getD []).length := length_le_foldl_put
      rwa [hc, (hholds j file hj).1, Option.getD_some, Option.getD_some, hslice hj] at hle
    · -- A write to an empty file's path would belong to a nonempty file.
      obtain ⟨j, hj⟩ := List.getElem?_of_mem hfile
      have hnone : ∀ w ∈ ws, w.path ≠ outputPath base file := by
        intro w hw hpath
        obtain ⟨i, file', hi, hpos, hpath', -⟩ := hparts w hw
        have heq := (hholds i file' hi).1
        rw [← hpath', hpath, (hholds j file hj).1] at heq
        have hlen := congrArg List.length (Option.some.inj heq)
        rw [hslice hj, hslice hi] at hlen
        omega
      rw [← foldl_put_of_forall_ne (f := f) hnone, (hholds j file hj).1, Option.isSome_some]
    · intro i j file file' hi hj hpath
      have hi := (hholds i file hi).1
      rw [hpath, (hholds j file' hj).1] at hi
      exact (Option.some.inj hi).symm
  · intro hclean j file hj
    obtain ⟨hlong, hempty, hsame⟩ := hclean hmulti
    have hfile := List.mem_of_getElem? hj
    have hnonneg := hg.length_nonneg (hfiles ▸ hfile)
    refine ⟨?_, by rw [hslice hj, TorrentFile.size]; omega⟩
    by_cases hsize : file.size = 0
    case pos =>
      have hnone : ∀ w ∈ ws, w.path ≠ outputPath base file := by
        intro w hw hpath
        obtain ⟨i, file', hi, hpos, hpath', -⟩ := hparts w hw
        have hlen := congrArg List.length (hsame i j file' file hi hj (hpath'.symm.trans hpath))
        rw [hslice hj, hslice hi] at hlen
        omega
      obtain ⟨c, hc⟩ := Option.isSome_iff_exists.1 (hempty file hfile hsize)
      have hcnil : c = [] := List.length_eq_zero_iff.1 (by have := hlong file hfile c hc; omega)
      have hslicenil := List.length_eq_zero_iff.1 ((hslice hj).trans hsize)
      rw [foldl_put_of_forall_ne hnone, hc, hcnil, hslicenil]
    case neg =>
      refine foldl_put_eq (List.ne_nil_of_length_pos (by rw [hslice hj]; omega)) ?_ ?_ ?_
      · rw [hslice hj]
        cases hc : f (outputPath base file) with
        | none => exact Nat.zero_le _
        | some c => exact hlong file hfile c hc
      · intro w hw hpath
        obtain ⟨i, file', hi, -, hpath', hpart⟩ := hparts w hw
        rwa [hsame i j file' file hi hj (hpath'.symm.trans hpath)] at hpart
      · intro k hk
        exact hcover j file hj k (hslice hj ▸ hk)

/-- After a download whose calls all succeed, the output is the payload exactly
    if, in multi-file mode, the directory was clean. -/
theorem outputHolds_iff {data : Bytes} {strdupOk : Bool} {fw : FileWriter} {order : List ℕ}
    {s₁ s₂ : Sys} (hparse : torrentParse data = some t)
    (hpay : payload.length = t.totalSize.toNat)
    (horder : ∀ index, index ∈ order ↔ index < t.numPieces)
    (hinit : fileWriterInit strdupOk t base s = .ok fw s₁)
    (hwrite : writeAll fw t payload order s₁ = .ok () s₂) :
    t.OutputHolds base payload s₂.fs.content ↔ t.OutputClean base payload s.fs.content := by
  have hg := geometry_of_torrentParse hparse
  obtain ⟨hfw, hcontent⟩ := fileWriterInit_eq_ok hinit
  rw [content_of_writeAll hfw hg hpay (fun i hi => (horder i).1 hi) hwrite]
  by_cases hmulti : t.isMultiFile
  case pos =>
    rw [if_pos hmulti] at hcontent
    rw [hcontent, outputHolds_iff_of_multi hg hmulti hpay horder]
  case neg =>
    rw [if_neg hmulti] at hcontent
    have hempty : s₁.fs.content (outputPath base ⟨t.outputName, t.length⟩) = some [] := by
      rw [hcontent, Function.update_self]
    exact iff_of_true (outputHolds_of_single hg hmulti hpay horder hempty) (absurd · hmulti)

end Payload

/-! ### An empty file -/

/-- A torrent of the file `a` of one byte and the empty file `b`. -/
def emptyFileTorrent : Bytes :=
  lit "d4:infod5:filesld6:lengthi1e4:pathl1:aeed6:lengthi0e4:pathl1:beee4:name1:n12:piece lengthi1e6:pieces20:aaaaaaaaaaaaaaaaaaaaee"

/-- The directory `/d`, with the given files in it. -/
def sysWith (files : List (Bytes × Bytes)) : Sys where
  fs p :=
    if p = [lit "d"] then some .dir
    else (files.find? fun file => p = [lit "d", file.1]).map fun file => .file file.2
  errno := 0
  calls := []
  fault _ := none

/-- All calls succeed, but the empty file is not created. -/
theorem not_outputHolds_emptyFile :
    ∃ t fw s₁ s₂, torrentParse emptyFileTorrent = some t ∧
      (∀ file ∈ t.outputs, safeRelativePath file.path) ∧ (t.outputs.map TorrentFile.path).Nodup ∧
      fileWriterInit true t (lit "/d") (sysWith []) = .ok fw s₁ ∧
      writeAll fw t (lit "x") [0] s₁ = .ok () s₂ ∧ [0] = List.range t.numPieces ∧
      ¬t.OutputHolds (lit "/d") (lit "x") s₂.fs.content := by
  obtain ⟨hparse, hsafe, hdistinct, hmulti, horder, hb, hwrite, hnone⟩ :
      (torrentParse emptyFileTorrent).isSome ∧
      (∀ file ∈ (parsed emptyFileTorrent).outputs, safeRelativePath file.path) ∧
      ((parsed emptyFileTorrent).outputs.map TorrentFile.path).Nodup ∧
      (parsed emptyFileTorrent).isMultiFile ∧
      [0] = List.range (parsed emptyFileTorrent).numPieces ∧
      (parsed emptyFileTorrent).outputs[1]? = some ⟨some (lit "b"), 0⟩ ∧
      succeeds (writeAll ⟨some (cstr (lit "/d")), some (parsed emptyFileTorrent), true, .closed⟩
        (parsed emptyFileTorrent) (lit "x") [0]) (sysWith []) ∧
      (final (writeAll ⟨some (cstr (lit "/d")), some (parsed emptyFileTorrent), true, .closed⟩
        (parsed emptyFileTorrent) (lit "x") [0]) (sysWith [])).fs.content
          (outputPath (lit "/d") ⟨some (lit "b"), 0⟩) = none := by decide +kernel
  obtain ⟨⟨⟩, hwrite⟩ := exists_of_succeeds hwrite
  refine ⟨parsed emptyFileTorrent, _, _, _, torrentParse_eq_parsed hparse, hsafe, hdistinct,
    fileWriterInit_multi hmulti, hwrite, horder, fun h => ?_⟩
  rw [(h 1 _ hb).1] at hnone
  cases hnone

/-- The file `b` declared empty comes out right if it was there. -/
theorem outputHolds_iff_emptyFile :
    ∃ (t : Torrent) (s₂ : Sys), torrentParse emptyFileTorrent = some t ∧
      (t.OutputHolds (lit "/d") (lit "x") s₂.fs.content ↔
        t.OutputClean (lit "/d") (lit "x") (sysWith [(lit "b", [])]).fs.content) := by
  obtain ⟨hparse, hmulti, hlen, hnum, hwrite⟩ : (torrentParse emptyFileTorrent).isSome ∧
      (parsed emptyFileTorrent).isMultiFile ∧
      (lit "x").length = (parsed emptyFileTorrent).totalSize.toNat ∧
      (parsed emptyFileTorrent).numPieces = 1 ∧
      succeeds (writeAll ⟨some (cstr (lit "/d")), some (parsed emptyFileTorrent), true, .closed⟩
        (parsed emptyFileTorrent) (lit "x") [0]) (sysWith [(lit "b", [])]) := by decide +kernel
  obtain ⟨⟨⟩, hwrite⟩ := exists_of_succeeds hwrite
  exact ⟨_, _, torrentParse_eq_parsed hparse, outputHolds_iff (torrentParse_eq_parsed hparse) hlen
    (fun index => by rw [hnum, List.mem_singleton, Nat.lt_one_iff]) (fileWriterInit_multi hmulti)
    hwrite⟩

end PS5Torrent
