import PS5Torrent.FileIo.Frame
import PS5Torrent.Library.WrittenBytes

/-!
# Pieces on disk

A piece can be read back from the files of a torrent (`Torrent.pieceOnDisk`).
Once it was written it stays there: the writer touches no byte outside the
places of the piece that it writes, even if it fails halfway
(`keepsOutside_fileWriterWritePiece`), and if the output files of a torrent
are different, two pieces have no place in common
(`Torrent.apart_pieceWrites`). All pieces together make up the files
(`Torrent.take_content_eq`).
-/

namespace PS5Torrent

open LexPath FileSystem FileLayout Effect

/-- What is read back from the files of a torrent for a piece. -/
def Torrent.pieceOnDisk (t : Torrent) (base : Bytes) (f : Contents) (index : ℕ) : Bytes :=
  if t.isMultiFile then
    (t.pieceParts index).flatMap fun part =>
      (((f (outputPath base part.file)).getD []).drop part.off).take part.len
  else
    (((f (outputPath base ⟨t.outputName, t.length⟩)).getD []).drop (t.pieceStart index)).take
      (t.pieceSize index)

/-- The data of a piece is in its places. -/
def Torrent.HasPiece (t : Torrent) (base : Bytes) (f : Contents) (data : Bytes) (index : ℕ) : Prop :=
  ∀ w ∈ t.pieceWrites base data index, w.IsIn f

variable {s s' : Sys} {t : Torrent} {base data data' : Bytes} {fw : FileWriter} {index index' : ℕ}
  {f f' : Contents} {ws : List Write}

/-! ## Where the writer writes -/

/-- No byte is lost outside the places of some writes. -/
def KeepsFilesOutside (ws : List Write) (s s' : Sys) : Prop :=
  KeepsOutside ws s.fs.content s'.fs.content

instance (ws : List Write) : IsPreorder Sys (KeepsFilesOutside ws) where
  refl s := refl_of (KeepsOutside ws) s.fs.content
  trans _ _ _ h h' := trans_of (KeepsOutside ws) h h'

theorem keepsOutside_seekWrite {p : Path} {offset : ℤ}
    (hw : ∀ k, (⟨p, offset.toNat, data⟩ : Write).Covers k → ∃ v ∈ ws, v.path = p ∧ v.Covers k) :
    Respects (KeepsFilesOutside ws) (seekWrite (.file p) offset data) := by
  have hseek : Respects (KeepsFilesOutside ws) (lseek (.file p) offset) :=
    respects_syscall (fun s _ => refl_of (KeepsOutside ws) s.fs.content) fun s n a fs h => by
      split at h
      · cases h
      · split at h
        · cases h
        · obtain ⟨-, rfl⟩ := Prod.mk.inj (Except.ok.inj h)
          exact refl_of (KeepsOutside ws) s.fs.content
  have hwrite : Respects (KeepsFilesOutside ws) (write (.file p) offset.toNat data) :=
    respects_syscall (fun s _ => refl_of (KeepsOutside ws) s.fs.content) fun s n a fs h => by
      obtain ⟨-, rfl⟩ := Prod.mk.inj (Except.ok.inj h)
      rw [KeepsFilesOutside, content_pwrite s.fs ⟨p, offset.toNat, _⟩]
      -- less may be written than was asked for
      refine keepsOutside_put fun k hk => hw k ⟨hk.1, hk.2.trans_le ?_⟩
      exact Nat.add_le_add_left (List.length_take_le' _ _) _
  refine hseek.bind_of_ok fun s pos s' hpos => ?_
  rw [(lseek_eq_ok hpos).2.1]
  exact hwrite.bind fun written => respects_ite (fun _ => respects_throw _) fun _ => respects_pure _

theorem keepsOutside_writePart {part : FileLayout.Part TorrentFile}
    (hws : partWrite base data part ∈ ws) :
    Respects (KeepsFilesOutside ws) (actOn (writePart base data) part) := by
  rw [actOn, writePart]
  refine respects_ite (fun _ => Respects.bind (fun s => refl_of (KeepsOutside ws) s.fs.content)
    fun _ => respects_throw _) fun _ => ?_
  cases hfull : fullPath base (part.file.path.getD []) with
  | none => exact respects_throw _
  | some full =>
    have hparents : Respects (KeepsFilesOutside ws) (createParentDirectories full) :=
      (sameContent_createParentDirectories full).mono fun h => KeepsOutside.of_eq h
    have hopen : Respects (KeepsFilesOutside ws) (openFile full false) :=
      respects_syscall (fun s _ => refl_of (KeepsOutside ws) s.fs.content)
        fun s n a fs h q k b hb _ => by
          split at h
          · rename_i hopen
            obtain ⟨-, rfl⟩ := Prod.mk.inj (Except.ok.inj h)
            by_cases hq : q = resolve full
            · subst hq
              rw [Contents.byte, Fs.content_of_openWrite hopen, Option.getD_some]
              exact hb
            · rw [Contents.byte, Fs.content_of_openWrite_of_ne hopen hq]
              exact hb
          · cases h
    refine hparents.bind fun _ => hopen.bind_of_ok fun s fd s' hfd => ?_
    rw [(openFile_eq_ok hfd).1, resolve_of_fullPath hfull]
    refine keepsOutside_seekWrite fun k hk => ⟨_, hws, rfl, ?_⟩
    rwa [Int.toNat_natCast] at hk

/-- Writing a piece, with whatever result, loses no byte outside the places of the piece. -/
theorem keepsOutside_fileWriterWritePiece (hfw : fw.For t base) (hg : t.Geometry)
    (hindex : index < t.numPieces) (hdata : data.length = t.pieceSize index) :
    Respects (KeepsFilesOutside (t.pieceWrites base data index))
      (fileWriterWritePiece fw data index) := by
  rw [fileWriterWritePiece, hfw.torrent_eq]
  dsimp only
  rw [hfw.multiFile_eq, hdata,
    writePiece_eq _ hg (fun x hl hu => by rw [toInt64_of_mem (by simp [INT64_MIN]; omega) hu]) _
      hindex, Torrent.pieceWrites]
  split
  case isTrue hmulti =>
    rw [hfw.basePath_eq, Option.getD_some, ← partWrite_cstr]
    exact respects_forM fun part hpart => keepsOutside_writePart (List.mem_map_of_mem hpart)
  case isFalse hmulti =>
    rw [hfw.fd_eq hmulti]
    refine keepsOutside_seekWrite fun k hk => ⟨_, List.mem_singleton_self _, rfl, ?_⟩
    rwa [Int.toNat_natCast] at hk

/-! ## Pieces that are apart -/

/-- The files of the parts are some of the files, in their order. -/
theorem sublist_file_pieceParts (t : Torrent) (index : ℕ) :
    ((t.pieceParts index).map Part.file).Sublist t.files := by
  refine ((List.filter_sublist.map Part.file).trans ?_)
  generalize t.pieceStart index = a
  generalize a + t.pieceSize index = b
  generalize 0 = start
  generalize t.files = files
  induction files generalizing start with
  | nil => exact List.Sublist.refl _
  | cons file files ih =>
    rw [parts]
    split
    · exact (ih _).cons_cons _
    · exact (ih _).cons _

/-- The writes of a piece go to different files. -/
theorem Torrent.pairwise_pieceWrites (hdistinct : (t.outputPaths base).Nodup) (data : Bytes)
    (index : ℕ) : (t.pieceWrites base data index).Pairwise Write.Apart := by
  rw [Torrent.pieceWrites]
  split
  case isTrue hmulti =>
    rw [Torrent.outputPaths, Torrent.outputs, if_pos hmulti] at hdistinct
    have hpaths := hdistinct.sublist ((sublist_file_pieceParts t index).map (outputPath base))
    rw [List.map_map, List.Nodup, List.pairwise_map] at hpaths
    exact List.pairwise_map.2 (hpaths.imp Write.apart_of_path_ne)
  case isFalse => exact List.pairwise_singleton _ _

/-- A place of a piece is a position of one of the files, and one of the piece. -/
theorem Torrent.exists_of_covers (hdata : data.length = t.pieceSize index) {w : Write}
    (hw : w ∈ t.pieceWrites base data index) {k : ℕ} (hk : w.Covers k) :
    ∃ j file, t.outputs[j]? = some file ∧ w.path = outputPath base file ∧
      t.pieceStart index ≤ total TorrentFile.size (t.outputs.take j) + k ∧
      total TorrentFile.size (t.outputs.take j) + k < t.pieceStart index + t.pieceSize index := by
  rw [Torrent.outputs]
  rw [Torrent.pieceWrites] at hw
  split at hw
  case isTrue hmulti =>
    rw [if_pos hmulti]
    obtain ⟨part, hpart, rfl⟩ := List.mem_map.1 hw
    obtain ⟨j, file, hj, -, -, rfl⟩ := mem_parts_iff_getElem?.1 (List.mem_filter.1 hpart).1
    refine ⟨j, file, hj, rfl, ?_⟩
    obtain ⟨hl, hu⟩ := hk
    simp only [partWrite, partOf, List.length_take] at hl hu
    omega
  case isFalse hmulti =>
    obtain rfl := List.mem_singleton.1 hw
    obtain ⟨hl, hu⟩ := hk
    rw [if_neg hmulti]
    refine ⟨0, _, rfl, rfl, ?_⟩
    simp only [List.take_zero, total_nil, zero_add]
    exact ⟨hl, hdata ▸ hu⟩

/-- A position is one of at most one piece. -/
theorem Torrent.pieceIndex_unique {x : ℕ} (hl : t.pieceStart index ≤ x)
    (hu : x < t.pieceStart index + t.pieceSize index) (hl' : t.pieceStart index' ≤ x)
    (hu' : x < t.pieceStart index' + t.pieceSize index') : index = index' := by
  have hle (i j : ℕ) (hi : t.pieceStart i ≤ x) (hj : x < t.pieceStart j + t.pieceSize j) : i ≤ j := by
    by_contra hlt
    have hmul : (j + 1) * t.pieceLength.toNat ≤ i * t.pieceLength.toNat :=
      Nat.mul_le_mul_right _ (not_le.1 hlt)
    have hsize : t.pieceSize j ≤ t.pieceLength.toNat := min_le_left _ _
    rw [Torrent.pieceStart] at hi hj
    rw [add_one_mul] at hmul
    omega
  exact (hle index index' hl hu').antisymm (hle index' index hl' hu)

/-- Two pieces have no place in common. -/
theorem Torrent.apart_pieceWrites (hdistinct : (t.outputPaths base).Nodup)
    (hne : index ≠ index') (hdata : data.length = t.pieceSize index)
    (hdata' : data'.length = t.pieceSize index') {w w' : Write}
    (hw : w ∈ t.pieceWrites base data index) (hw' : w' ∈ t.pieceWrites base data' index') :
    w.Apart w' := by
  intro hpath k hk hk'
  obtain ⟨j, file, hj, hwpath, hl, hu⟩ := t.exists_of_covers hdata hw hk
  obtain ⟨j', file', hj', hwpath', hl', hu'⟩ := t.exists_of_covers hdata' hw' hk'
  have hsame : (t.outputPaths base)[j]? = (t.outputPaths base)[j']? := by
    rw [Torrent.outputPaths, List.getElem?_map, List.getElem?_map, hj, hj', Option.map_some,
      Option.map_some, ← hwpath, ← hwpath', hpath]
  have hlt : j < (t.outputPaths base).length := by
    rw [Torrent.outputPaths, List.length_map]
    exact (List.getElem?_eq_some_iff.1 hj).1
  obtain rfl : j = j' := (List.getElem?_inj hlt hdistinct).1 hsame
  exact hne (Torrent.pieceIndex_unique hl hu hl' hu')

/-- A piece that was written is in its places. -/
theorem hasPiece_of_writePiece (hdistinct : (t.outputPaths base).Nodup) (hfw : fw.For t base)
    (hg : t.Geometry) (hindex : index < t.numPieces) (hdata : data.length = t.pieceSize index)
    (h : fileWriterWritePiece fw data index s = .ok () s') :
    t.HasPiece base s'.fs.content data index := by
  intro w hw
  rw [content_of_writePiece hfw hg hindex hdata h]
  exact isIn_foldl_put (t.pairwise_pieceWrites hdistinct data index) hw

/-- A piece stays in its places when another one is written, with whatever result. -/
theorem Torrent.HasPiece.writePiece (h : t.HasPiece base s.fs.content data index)
    (hdistinct : (t.outputPaths base).Nodup) (hfw : fw.For t base) (hg : t.Geometry)
    (hindex : index' < t.numPieces) (hdata : data.length = t.pieceSize index)
    (hdata' : data'.length = t.pieceSize index') (hne : index ≠ index') :
    t.HasPiece base (final (fileWriterWritePiece fw data' index') s).fs.content data index :=
  fun w hw => (h w hw).keepsOutside (keepsOutside_fileWriterWritePiece hfw hg hindex hdata' s)
    fun _ hw' => Torrent.apart_pieceWrites hdistinct hne hdata hdata' hw hw'

/-- A piece stays in its places as long as the files keep their contents. -/
theorem Torrent.HasPiece.of_eq (h : t.HasPiece base f data index)
    (heq : ∀ path ∈ t.outputPaths base, f' path = f path) : t.HasPiece base f' data index := by
  intro w hw
  have hpath : w.path ∈ t.outputPaths base := by
    rw [Torrent.outputPaths, Torrent.outputs]
    rw [Torrent.pieceWrites] at hw
    split at hw
    case isTrue hmulti =>
      obtain ⟨part, hpart, rfl⟩ := List.mem_map.1 hw
      rw [if_pos hmulti]
      exact List.mem_map_of_mem
        ((sublist_file_pieceParts t index).subset (List.mem_map_of_mem hpart))
    case isFalse hmulti =>
      obtain rfl := List.mem_singleton.1 hw
      rw [if_neg hmulti]
      exact List.mem_singleton_self _
  have hin := h w hw
  rw [Write.IsIn] at hin ⊢
  rwa [heq w.path hpath]

/-! ## Reading a piece back -/

theorem flatMap_contiguous {α : Type} {ps : List (FileLayout.Part α)} {pos : ℕ} (hps : Contiguous pos ps)
    (hsum : data.length ≤ pos + (ps.map Part.len).sum) :
    (ps.flatMap fun part => (data.drop part.pos).take part.len) = data.drop pos := by
  induction ps generalizing pos with
  | nil =>
    rw [List.map_nil, List.sum_nil, add_zero] at hsum
    rw [List.drop_eq_nil_of_le hsum, List.flatMap_nil]
  | cons part ps ih =>
    obtain ⟨rfl, hps⟩ := hps
    rw [List.map_cons, List.sum_cons, ← add_assoc] at hsum
    rw [List.flatMap_cons, ih hps hsum, ← List.drop_drop, List.take_append_drop]

theorem flatMap_filter {α β : Type} {p : α → Prop} [DecidablePred p] {g : α → List β}
    (h : ∀ a, ¬p a → g a = []) (as : List α) : (as.filter p).flatMap g = as.flatMap g := by
  induction as with
  | nil => rfl
  | cons a as ih =>
    by_cases ha : p a
    · rw [List.filter_cons_of_pos (by simpa using ha), List.flatMap_cons, List.flatMap_cons, ih]
    · rw [List.filter_cons_of_neg (by simpa using ha), List.flatMap_cons, h a ha, List.nil_append, ih]

/-- A piece that is in its places is read back. -/
theorem Torrent.HasPiece.pieceOnDisk_eq (h : t.HasPiece base f data index) (hg : t.Geometry)
    (hindex : index < t.numPieces) (hdata : data.length = t.pieceSize index) :
    t.pieceOnDisk base f index = data := by
  rw [HasPiece, Torrent.pieceWrites] at h
  rw [Torrent.pieceOnDisk]
  split
  case isTrue hmulti =>
    rw [if_pos hmulti] at h
    have hstart := hg.lt_numPieces_iff.1 hindex
    have hend := Torrent.pieceStart_add_pieceSize_le hstart.le
    -- each part is in its place, and the parts without bytes make no difference
    have hread : ∀ part ∈ t.pieceParts index,
        (((f (outputPath base part.file)).getD []).drop part.off).take part.len =
          (data.drop part.pos).take part.len := by
      intro part hpart
      have hin := h _ (List.mem_map_of_mem hpart)
      obtain ⟨j, file, -, -, -, rfl⟩ := mem_parts_iff_getElem?.1 (List.mem_filter.1 hpart).1
      rw [Write.IsIn, length_partWrite hdata] at hin
      exact hin
    have hempty : ∀ part : FileLayout.Part TorrentFile, ¬0 < part.len →
        (data.drop part.pos).take part.len = [] := by
      intro part hlen
      rw [Nat.eq_zero_of_not_pos hlen, List.take_zero]
    have hcont := contiguous_parts TorrentFile.size t.files 0
      (Nat.le_add_right (t.pieceStart index) (t.pieceSize index))
    rw [Nat.min_zero, Nat.zero_sub] at hcont
    rw [List.flatMap_congr hread, Torrent.pieceParts, flatMap_filter hempty,
      flatMap_contiguous hcont, List.drop_zero]
    rw [sum_len_parts, hg.total_files hmulti]
    omega
  case isFalse hmulti =>
    rw [if_neg hmulti] at h
    have hw := h _ (List.mem_singleton_self _)
    rw [Write.IsIn, hdata] at hw
    exact hw

/-! ## All pieces -/

/-- The payload that consists of some pieces. -/
def Torrent.payloadOf (t : Torrent) (pieces : ℕ → Bytes) : Bytes :=
  (List.range t.totalSize.toNat).map fun x =>
    ((pieces (x / t.pieceLength.toNat))[x % t.pieceLength.toNat]?).getD 0

theorem Torrent.length_payloadOf (t : Torrent) (pieces : ℕ → Bytes) :
    (t.payloadOf pieces).length = t.totalSize.toNat := by
  rw [payloadOf, List.length_map, List.length_range]

theorem Torrent.pieceData_payloadOf {pieces : ℕ → Bytes} (hg : t.Geometry) (hindex : index < t.numPieces)
    (hlen : (pieces index).length = t.pieceSize index) :
    t.pieceData (t.payloadOf pieces) index = pieces index := by
  have hend := Torrent.pieceStart_add_pieceSize_le (hg.lt_numPieces_iff.1 hindex).le
  have hsize : t.pieceSize index ≤ t.pieceLength.toNat := min_le_left _ _
  refine List.ext_getElem? fun k => ?_
  by_cases hk : k < t.pieceSize index
  · have hdiv : (t.pieceStart index + k) / t.pieceLength.toNat = index := by
      rw [Torrent.pieceStart, Nat.mul_comm, Nat.mul_add_div (by omega),
        Nat.div_eq_of_lt (by omega), Nat.add_zero]
    have hmod : (t.pieceStart index + k) % t.pieceLength.toNat = k := by
      rw [Torrent.pieceStart, Nat.mul_comm, Nat.mul_add_mod, Nat.mod_eq_of_lt (by omega)]
    rw [Torrent.pieceData, List.getElem?_take_of_lt hk, List.getElem?_drop, Torrent.payloadOf,
      List.getElem?_map, List.getElem?_range (by omega), Option.map_some, hdiv, hmod,
      List.getElem?_eq_getElem (by omega), Option.getD_some]
  · rw [List.getElem?_eq_none (by rw [Torrent.pieceData, List.length_take]; omega),
      List.getElem?_eq_none (by omega)]

/-- Each byte of an output file is in a place of a piece. -/
theorem Torrent.exists_write_at {payload : Bytes} {j k : ℕ} {file : TorrentFile} (hg : t.Geometry)
    (hdistinct : (t.outputPaths base).Nodup) (hpay : payload.length = t.totalSize.toNat)
    (hj : t.outputs[j]? = some file) (hk : k < file.size) :
    ∃ index < t.numPieces, ∃ w ∈ t.pieceWrites base (t.pieceData payload index) index,
      w.path = outputPath base file ∧ w.Covers k ∧ w.IsPartOf (t.outputSlice payload j file) := by
  by_cases hmulti : t.isMultiFile
  case pos =>
    have hfiles : t.outputs = t.files := if_pos hmulti
    obtain ⟨index, hindex, w, hw, hpath, hcovers⟩ : ∃ index < t.numPieces,
        ∃ w ∈ t.pieceWrites base (t.pieceData payload index) index,
          w.path = outputPath base file ∧ w.Covers k :=
      exists_pieceWrites_covers hg hmulti hpay (hfiles ▸ hj) hk
    refine ⟨index, hindex, w, hw, hpath, hcovers, ?_⟩
    obtain ⟨j', file', hj', -, hpath', hpart⟩ := isPartOf_of_mem_pieceWrites hg hmulti hpay hindex hw
    rw [← hfiles] at hj'
    have hlt : j < (t.outputPaths base).length := by
      rw [Torrent.outputPaths, List.length_map]
      exact (List.getElem?_eq_some_iff.1 hj).1
    have hsame : (t.outputPaths base)[j]? = (t.outputPaths base)[j']? := by
      rw [Torrent.outputPaths, List.getElem?_map, List.getElem?_map, hj, hj', Option.map_some,
        Option.map_some, ← hpath, ← hpath']
    obtain rfl := (List.getElem?_inj hlt hdistinct).1 hsame
    obtain rfl := Option.some.inj (hj.symm.trans hj')
    exact hpart
  case neg =>
    have hend := hg.end_le hj
    have hslice := length_outputSlice hg hpay hj
    rw [Torrent.outputs, if_neg hmulti] at hj
    obtain ⟨rfl, rfl⟩ : j = 0 ∧ file = ⟨t.outputName, t.length⟩ := by
      obtain ⟨hlt, heq⟩ := List.getElem?_eq_some_iff.1 hj
      obtain rfl : j = 0 := by simpa using hlt
      exact ⟨rfl, heq.symm⟩
    rw [List.take_zero, total_nil, zero_add] at hend
    obtain ⟨index, hindex, hl, hu⟩ := hg.exists_piece (hk.trans_le hend)
    have hdata := length_pieceData hg hpay hindex
    have hlast := Torrent.pieceStart_add_pieceSize_le (hg.lt_numPieces_iff.1 hindex).le
    refine ⟨index, hindex, ⟨outputPath base ⟨t.outputName, t.length⟩, t.pieceStart index,
      t.pieceData payload index⟩, ?_, rfl, ⟨hl, ?_⟩, ?_, ?_⟩
    · rw [Torrent.pieceWrites, if_neg hmulti]
      exact List.mem_singleton_self _
    · rwa [hdata]
    · rw [hdata, hslice, TorrentFile.size, ← hg.single hmulti]
      exact hlast
    · dsimp only
      rw [Torrent.outputSlice, List.take_zero, total_nil, List.drop_zero, TorrentFile.size,
        ← hg.single hmulti, List.take_of_length_le hpay.le, hdata]
      rfl

/-- If all pieces of a payload are in their places, each output file begins with its part of it. -/
theorem Torrent.take_content_eq {payload : Bytes} {j : ℕ} {file : TorrentFile} (hg : t.Geometry)
    (hdistinct : (t.outputPaths base).Nodup) (hpay : payload.length = t.totalSize.toNat)
    (hj : t.outputs[j]? = some file)
    (h : ∀ index < t.numPieces, t.HasPiece base f (t.pieceData payload index) index) :
    ((f (outputPath base file)).getD []).take file.size = t.outputSlice payload j file := by
  have hlen := length_outputSlice hg hpay hj
  refine List.ext_getElem? fun k => ?_
  by_cases hk : k < file.size
  · obtain ⟨index, hindex, w, hw, hpath, hcovers, hpart⟩ :=
      Torrent.exists_write_at hg hdistinct hpay hj hk
    have hbyte := Write.isIn_iff.1 (h index hindex w hw) k hcovers
    rw [Contents.byte, hpath] at hbyte
    rw [List.getElem?_take_of_lt hk, hbyte, hpart.getElem? hcovers]
  · rw [List.getElem?_eq_none (by rw [List.length_take]; omega),
      List.getElem?_eq_none (by omega)]

end PS5Torrent
