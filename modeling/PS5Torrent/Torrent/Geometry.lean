import PS5Torrent.Torrent
import PS5Torrent.Bencode.Fuel
import PS5Torrent.Library.FileLayout
import Mathlib.Algebra.Order.Floor.Div
import Mathlib.Algebra.BigOperators.Intervals
import Mathlib.Algebra.BigOperators.Ring.Finset

/-!
# Geometry

The sizes in an accepted metainfo are consistent (`Torrent.Geometry`): its
total length is the length of its files, and is cut into as many pieces as
there are hashes, all of the piece length but the last, which is not longer
and not empty.
-/

namespace PS5Torrent

open Bencode FileLayout

/-- The consistency of the sizes of a metainfo. -/
structure Torrent.Geometry (t : Torrent) : Prop where
  one_le_pieceLength : 1 ≤ t.pieceLength
  pieceLength_le : t.pieceLength ≤ INT64_MAX
  one_le_totalSize : 1 ≤ t.totalSize
  totalSize_le : t.totalSize ≤ INT64_MAX
  piecesLen_eq : t.piecesLen = 20 * t.numPieces
  numPieces_eq : t.numPieces = t.totalSize.toNat ⌈/⌉ t.pieceLength.toNat
  multi : t.isMultiFile → t.numFiles ≤ MAX_TORRENT_FILES ∧ (∀ file ∈ t.files, 0 ≤ file.length) ∧
    t.totalSize = (t.files.map TorrentFile.length).sum
  single : ¬t.isMultiFile → t.totalSize = t.length

/-! ## Accepted metainfo -/

theorem zero_mem_int64 : INT64_MIN ≤ 0 ∧ 0 ≤ INT64_MAX := by decide

/-- An integer read from a tree of `int64_t` integers is one. -/
theorem bcodeIntVal_mem {node : BcodeNode} (h : IsInt64 node) :
    INT64_MIN ≤ bcodeIntVal node ∧ bcodeIntVal node ≤ INT64_MAX := by
  cases h with
  | int hl hu => exact ⟨hl, hu⟩
  | str | list | dict => exact zero_mem_int64

theorem bcodeDictGet_mem {entries : List (Bytes × BcodeNode)} {key : Bytes} {node : BcodeNode}
    (h : bcodeDictGet entries key = some node) : ∃ e ∈ entries, e.2 = node := by
  obtain ⟨e, he, rfl⟩ := Option.map_eq_some_iff.1 h
  exact ⟨e, List.mem_of_find?_eq_some he, rfl⟩

/-- The integer under a key, or `0`. -/
theorem bcodeDictGet_intVal_mem {entries : List (Bytes × BcodeNode)}
    (h : ∀ e ∈ entries, IsInt64 e.2) (key : Bytes) :
    INT64_MIN ≤ ((bcodeDictGet entries key).map bcodeIntVal).getD 0 ∧
      ((bcodeDictGet entries key).map bcodeIntVal).getD 0 ≤ INT64_MAX := by
  cases hget : bcodeDictGet entries key with
  | none => exact zero_mem_int64
  | some node =>
    obtain ⟨e, he, rfl⟩ := bcodeDictGet_mem hget
    exact bcodeIntVal_mem (h e he)

/-- The lengths of the listed files are not negative, and add up to the total
    that is checked at each file. -/
theorem parseFiles_eq_some : ∀ {entries : List BcodeNode} {total : ℤ} {files : List TorrentFile}
    {total' : ℤ}, parseFiles entries total = some (files, total') →
    files.length = entries.length ∧ (∀ file ∈ files, 0 ≤ file.length) ∧
      total' = total + (files.map TorrentFile.length).sum ∧
      (total ≤ INT64_MAX → total' ≤ INT64_MAX)
  | [], total, files, total', h => by
    obtain ⟨rfl, rfl⟩ := Prod.mk.inj (Option.some.inj h)
    exact ⟨rfl, by simp, by simp, id⟩
  | .dict fentry :: entries, total, files, total', h => by
    rw [parseFiles] at h
    dsimp only at h
    split at h
    · cases h
    rename_i hlen
    push Not at hlen
    obtain ⟨⟨rest, q⟩, hrest, hq⟩ := Option.map_eq_some_iff.1 h
    obtain ⟨rfl, rfl⟩ := Prod.mk.inj hq
    obtain ⟨hl, hnonneg, hsum, hle⟩ := parseFiles_eq_some hrest
    refine ⟨by simp [hl], ?_, ?_, fun _ => hle (by linarith [hlen.2])⟩
    · rintro file (_ | ⟨_, hfile⟩)
      exacts [hlen.1, hnonneg file hfile]
    · rw [hsum, List.map_cons, List.sum_cons, add_assoc]
  | .str _ :: entries, total, files, total', h
  | .int _ :: entries, total, files, total', h
  | .list _ :: entries, total, files, total', h => by
    obtain ⟨⟨rest, q⟩, hrest, hq⟩ := Option.map_eq_some_iff.1 h
    obtain ⟨rfl, rfl⟩ := Prod.mk.inj hq
    obtain ⟨hl, hnonneg, hsum, hle⟩ := parseFiles_eq_some hrest
    refine ⟨by simp [hl], ?_, ?_, hle⟩
    · rintro file (_ | ⟨_, hfile⟩)
      exacts [le_rfl, hnonneg file hfile]
    · rw [hsum, List.map_cons, List.sum_cons, zero_add]

/-- What the check of the geometry means for positive sizes. -/
theorem numPieces_eq_ceilDiv {total pieceLength : ℤ} (hl : 0 < pieceLength) (ht : 0 < total) :
    (total.toNat / pieceLength.toNat + if total.tmod pieceLength ≠ 0 then 1 else 0) =
      total.toNat ⌈/⌉ pieceLength.toNat := by
  lift total to ℕ using ht.le
  lift pieceLength to ℕ using hl.le
  have hpos : 0 < pieceLength := by exact_mod_cast hl
  rw [Int.toNat_natCast, Int.toNat_natCast, Int.tmod_eq_emod_of_nonneg (by omega),
    ← Int.natCast_mod, Nat.ceilDiv_eq_add_pred_div]
  have hdiv := Nat.div_add_mod total pieceLength
  split
  case isTrue hmod =>
    rw [eq_comm, Nat.div_eq_iff hpos]
    have hlt := Nat.mod_lt total hpos
    have hmod : 0 < total % pieceLength := by omega
    rw [add_one_mul, mul_comm (total / pieceLength)]
    omega
  case isFalse hmod =>
    have hmod : total % pieceLength = 0 := by omega
    rw [eq_comm, Nat.div_eq_iff hpos, add_zero, mul_comm (total / pieceLength)]
    omega

/-- The geometry of an accepted metainfo is consistent. -/
theorem geometry_of_torrentParse {data : Bytes} {t : Torrent} (h : torrentParse data = some t) :
    t.Geometry := by
  obtain ⟨root, info, layout, hroot, hinfo, hlayout, rfl, hok⟩ := torrentParse_eq_some h
  have hints : ∀ e ∈ info, IsInt64 e.2 := by
    rw [bcodeParse, Option.ite_none_left_eq_some, Option.map_eq_some_iff] at hroot
    obtain ⟨-, ⟨node, pos'⟩, hnode, rfl⟩ := hroot
    obtain ⟨e, he, heq⟩ := bcodeDictGet_mem hinfo
    cases isInt64_of_parseValue hnode with
    | dict hentries =>
      have hinfo := hentries e he
      rw [heq] at hinfo
      cases hinfo with
      | dict hinfo => exact hinfo
  simp only [Torrent.geometryOk, Bool.and_eq_true, decide_eq_true_eq] at hok
  obtain ⟨⟨⟨⟨⟨-, -⟩, hpl⟩, htotal⟩, hmod⟩, hnum⟩ := hok
  rw [numPieces_eq_ceilDiv hpl htotal] at hnum
  have hpieces : (Torrent.ofDicts root info layout).piecesLen =
      20 * (Torrent.ofDicts root info layout).numPieces :=
    (Nat.mul_div_cancel' (Nat.dvd_of_mod_eq_zero hmod)).symm
  have hlayoutle : layout.totalSize ≤ INT64_MAX ∧
      (layout.isMultiFile → layout.files.length ≤ MAX_TORRENT_FILES ∧
        (∀ file ∈ layout.files, 0 ≤ file.length) ∧
        layout.totalSize = (layout.files.map TorrentFile.length).sum) ∧
      (¬layout.isMultiFile → layout.totalSize = layout.length) := by
    rw [parseLayout] at hlayout
    split at hlayout
    · rename_i entries _
      split at hlayout
      · cases hlayout
      rename_i hmax
      obtain ⟨⟨files, total⟩, hfiles, rfl⟩ := Option.map_eq_some_iff.1 hlayout
      obtain ⟨hlen, hnonneg, hsum, hle⟩ := parseFiles_eq_some hfiles
      exact ⟨hle zero_mem_int64.2, fun _ => ⟨hlen ▸ not_lt.1 hmax, hnonneg, hsum.trans (zero_add _)⟩,
        fun h => absurd rfl h⟩
    · obtain rfl := Option.some.inj hlayout
      exact ⟨(bcodeDictGet_intVal_mem hints _).2, fun h => absurd h Bool.false_ne_true,
        fun _ => rfl⟩
  exact {
    one_le_pieceLength := hpl
    pieceLength_le := (bcodeDictGet_intVal_mem hints _).2
    one_le_totalSize := htotal
    totalSize_le := hlayoutle.1
    piecesLen_eq := hpieces
    numPieces_eq := hnum
    multi := hlayoutle.2.1
    single := hlayoutle.2.2 }

/-- There are no more pieces than the metainfo has bytes. -/
theorem numPieces_le_of_torrentParse {data : Bytes} {t : Torrent} (h : torrentParse data = some t) :
    t.numPieces ≤ data.length := by
  obtain ⟨root, info, layout, hroot, hinfo, -, rfl, -⟩ := torrentParse_eq_some h
  obtain ⟨e, he, heq⟩ := bcodeDictGet_mem hinfo
  cases strLen_le_of_bcodeParse hroot with
  | dict hentries =>
    have hdict := hentries e he
    rw [heq] at hdict
    cases hdict with
    | dict hstrings =>
      refine (Nat.div_le_self _ _).trans ?_
      cases hpieces : bcodeDictGet info (lit "pieces") with
      | none => exact Nat.zero_le _
      | some node =>
        obtain ⟨e', he', heq'⟩ := bcodeDictGet_mem hpieces
        have hnode := hstrings e' he'
        rw [heq'] at hnode
        cases hnode with
        | str hlen => exact hlen
        | int | list | dict => exact Nat.zero_le _

/-! ## Pieces

The size of a piece as the source computes it, over the conversion of each
result to `uint64_t`, and as it is without overflow. -/

section Arithmetic

variable {m : Type → Type} [Monad m] (uint64 : ℤ → m ℤ)

/-- `torrent_piece_size` -/
def torrentPieceSizeM (t : Torrent) (index : ℕ) : m ℤ :=
  if index ≥ t.numPieces then pure 0
  else do
    let size ← uint64 t.pieceLength
    if index = t.numPieces - 1 then
      let offset ← uint64 (index * size)
      uint64 (t.totalSize - offset)
    else pure size

/-- The size of the piece that `process_peer` begins to download. -/
def nextPieceSizeM (t : Torrent) (next : ℕ) : m ℤ := do
  let size ← uint64 t.pieceLength
  if next = t.numPieces - 1 then
    let offset ← uint64 (next * size)
    uint64 (t.totalSize - offset)
  else pure size

end Arithmetic

def torrentPieceSize (t : Torrent) (index : ℕ) : ℕ :=
  (Id.run (torrentPieceSizeM (fun x => pure (toUInt64 x)) t index)).toNat

def nextPieceSize (t : Torrent) (next : ℕ) : ℕ :=
  (Id.run (nextPieceSizeM (fun x => pure (toUInt64 x)) t next)).toNat

/-- The length of a file. -/
def TorrentFile.size (file : TorrentFile) : ℕ := file.length.toNat

namespace Torrent

/-- The position of a piece in the payload. -/
def pieceStart (t : Torrent) (index : ℕ) : ℕ := index * t.pieceLength.toNat

/-- The size of a piece. -/
def pieceSize (t : Torrent) (index : ℕ) : ℕ :=
  min t.pieceLength.toNat (t.totalSize.toNat - t.pieceStart index)

variable {t : Torrent} {index : ℕ}

theorem pieceStart_add_pieceSize_le (h : t.pieceStart index ≤ t.totalSize.toNat) :
    t.pieceStart index + t.pieceSize index ≤ t.totalSize.toNat := by
  rw [pieceSize]
  omega

namespace Geometry

theorem pieceLength_pos (hg : t.Geometry) : 0 < t.pieceLength.toNat := by
  have := hg.one_le_pieceLength
  omega

theorem totalSize_pos (hg : t.Geometry) : 0 < t.totalSize.toNat := by
  have := hg.one_le_totalSize
  omega

/-- The pieces are those that start inside the payload. -/
theorem lt_numPieces_iff (hg : t.Geometry) :
    index < t.numPieces ↔ t.pieceStart index < t.totalSize.toNat := by
  rw [hg.numPieces_eq, ← not_le, ceilDiv_le_iff_le_mul hg.pieceLength_pos, not_le, mul_comm,
    pieceStart]

/-- The files of a multi-file torrent fill the payload. -/
theorem total_files (hg : t.Geometry) (h : t.isMultiFile) :
    total TorrentFile.size t.files = t.totalSize.toNat := by
  obtain ⟨-, hnonneg, hsum⟩ := hg.multi h
  have hcast : ((total TorrentFile.size t.files : ℕ) : ℤ) =
      (t.files.map TorrentFile.length).sum := by
    rw [total, Nat.cast_list_sum, List.map_map]
    exact congrArg List.sum
      (List.map_congr_left fun f hf => Int.toNat_of_nonneg (hnonneg f hf))
  omega

theorem pieceSize_pos (hg : t.Geometry) (h : index < t.numPieces) : 0 < t.pieceSize index := by
  have hstart := hg.lt_numPieces_iff.1 h
  have hpos := hg.pieceLength_pos
  rw [pieceSize]
  omega

theorem pieceSize_le : t.pieceSize index ≤ t.pieceLength.toNat := min_le_left _ _

theorem pieceSize_of_ge (hg : t.Geometry) (h : t.numPieces ≤ index) : t.pieceSize index = 0 := by
  have hstart := mt hg.lt_numPieces_iff.2 (not_lt.2 h)
  rw [pieceSize]
  omega

/-- Every position of the payload lies in a piece. -/
theorem exists_piece (hg : t.Geometry) {pos : ℕ} (h : pos < t.totalSize.toNat) :
    ∃ i < t.numPieces, t.pieceStart i ≤ pos ∧ pos < t.pieceStart i + t.pieceSize i := by
  have hdiv := Nat.div_add_mod pos t.pieceLength.toNat
  have hmod := Nat.mod_lt pos hg.pieceLength_pos
  rw [mul_comm] at hdiv
  refine ⟨pos / t.pieceLength.toNat, ?_, ?_, ?_⟩
  · rw [hg.lt_numPieces_iff, pieceStart]
    omega
  · rw [pieceStart]
    omega
  · rw [pieceSize, pieceStart]
    omega

/-- All pieces but the last have the piece length. -/
theorem pieceSize_of_ne (hg : t.Geometry) (h : index < t.numPieces) (hne : index ≠ t.numPieces - 1) :
    t.pieceSize index = t.pieceLength.toNat := by
  have hnext := hg.lt_numPieces_iff.1 (show index + 1 < t.numPieces by omega)
  rw [pieceStart, add_one_mul, ← pieceStart] at hnext
  rw [pieceSize]
  omega

/-- The last piece ends the payload. -/
theorem pieceSize_last (hg : t.Geometry) (heq : index = t.numPieces - 1) :
    t.pieceSize index = t.totalSize.toNat - t.pieceStart index := by
  have hend := mt hg.lt_numPieces_iff.2 (show ¬index + 1 < t.numPieces by omega)
  rw [pieceStart, add_one_mul, ← pieceStart] at hend
  rw [pieceSize]
  omega

/-- The first pieces fill the payload from its start. -/
theorem sum_pieceSize_range (t : Torrent) (n : ℕ) :
    ∑ i ∈ Finset.range n, t.pieceSize i = min t.totalSize.toNat (t.pieceStart n) := by
  induction n with
  | zero => simp [pieceStart]
  | succ n ih =>
    rw [Finset.sum_range_succ, ih, pieceSize, pieceStart, pieceStart, add_one_mul]
    omega

theorem sum_pieceSize (hg : t.Geometry) :
    ∑ i ∈ Finset.range t.numPieces, t.pieceSize i = t.totalSize.toNat := by
  rw [sum_pieceSize_range]
  have := mt hg.lt_numPieces_iff.2 (lt_irrefl _)
  omega

end Geometry

end Torrent

/-! ### The computed sizes -/

section Exact

variable {m : Type → Type} [Monad m] [LawfulMonad m] {uint64 : ℤ → m ℤ} {t : Torrent} {index : ℕ}

/-- The computation of a piece's size, where it meets no result outside
    `0..INT64_MAX`, is exact. -/
theorem nextPieceSizeM_eq (hg : t.Geometry)
    (hint : ∀ x, 0 ≤ x → x ≤ INT64_MAX → uint64 x = pure x) (h : index < t.numPieces) :
    nextPieceSizeM uint64 t index = pure (t.pieceSize index : ℤ) := by
  have hstart := hg.lt_numPieces_iff.1 h
  have hl := hg.one_le_pieceLength
  have hoff : (index : ℤ) * t.pieceLength = t.pieceStart index := by
    rw [Torrent.pieceStart, Nat.cast_mul, Int.toNat_of_nonneg (by omega)]
  have htotal := hg.totalSize_le
  rw [nextPieceSizeM, hint _ (by omega) hg.pieceLength_le, pure_bind]
  split
  case isTrue hlast =>
    rw [hoff, hint _ (by omega) (by omega), pure_bind, hint _ (by omega) (by omega),
      hg.pieceSize_last hlast]
    congr 1
    omega
  case isFalse hne =>
    rw [hg.pieceSize_of_ne h hne, Int.toNat_of_nonneg (by omega)]

theorem torrentPieceSizeM_eq (hg : t.Geometry)
    (hint : ∀ x, 0 ≤ x → x ≤ INT64_MAX → uint64 x = pure x) :
    torrentPieceSizeM uint64 t index = pure (t.pieceSize index : ℤ) := by
  rw [torrentPieceSizeM]
  split
  case isTrue hge => rw [hg.pieceSize_of_ge hge, Nat.cast_zero]
  case isFalse hlt => exact nextPieceSizeM_eq hg hint (not_le.1 hlt)

theorem torrentPieceSize_eq (hg : t.Geometry) : torrentPieceSize t index = t.pieceSize index := by
  rw [torrentPieceSize, torrentPieceSizeM_eq hg fun x hl hu => by rw [toUInt64_of_mem hl hu]]
  exact Int.toNat_natCast _

theorem nextPieceSize_eq (hg : t.Geometry) (h : index < t.numPieces) :
    nextPieceSize t index = t.pieceSize index := by
  rw [nextPieceSize, nextPieceSizeM_eq hg (fun x hl hu => by rw [toUInt64_of_mem hl hu]) h]
  exact Int.toNat_natCast _

end Exact

/-! ## The payload -/

/-- The files listed in a metainfo. -/
def Torrent.outputs (t : Torrent) : List TorrentFile :=
  if t.isMultiFile then t.files else [⟨t.outputName, t.length⟩]

/-- The data of a piece of the payload. -/
def Torrent.pieceData (t : Torrent) (payload : Bytes) (index : ℕ) : Bytes :=
  (payload.drop (t.pieceStart index)).take (t.pieceSize index)

/-- The part of the payload that belongs to the file at an index of the list. -/
def Torrent.outputSlice (t : Torrent) (payload : Bytes) (j : ℕ) (file : TorrentFile) : Bytes :=
  (payload.drop (total TorrentFile.size (t.outputs.take j))).take file.size

/-- Do something with a part of a file: the file, the offset in it, the position
    in the piece, and the length. -/
def actOn {m : Type → Type} (act : TorrentFile → ℤ → ℕ → ℕ → m Unit)
    (part : FileLayout.Part TorrentFile) :
    m Unit :=
  act part.file part.off part.pos part.len

section Payload

variable {t : Torrent} {payload : Bytes} {index j : ℕ} {file : TorrentFile}

theorem Torrent.Geometry.total_outputs (hg : t.Geometry) :
    total TorrentFile.size t.outputs = t.totalSize.toNat := by
  rw [Torrent.outputs]
  split
  case isTrue h => exact hg.total_files h
  case isFalse h => rw [total_cons, total_nil, add_zero, hg.single h, TorrentFile.size]

theorem Torrent.Geometry.length_nonneg (hg : t.Geometry) (h : file ∈ t.outputs) :
    0 ≤ file.length := by
  rw [Torrent.outputs] at h
  split at h
  case isTrue hmulti => exact (hg.multi hmulti).2.1 file h
  case isFalse hmulti =>
    obtain rfl := List.mem_singleton.1 h
    have := hg.one_le_totalSize
    rw [hg.single hmulti] at this
    exact (by omega : (0 : ℤ) ≤ t.length)

/-- A listed file ends before the end of the payload. -/
theorem Torrent.Geometry.end_le (hg : t.Geometry) (h : t.outputs[j]? = some file) :
    total TorrentFile.size (t.outputs.take j) + file.size ≤ t.totalSize.toNat := by
  rw [← hg.total_outputs]
  exact total_take_add_le TorrentFile.size h

theorem length_outputSlice (hg : t.Geometry) (hpay : payload.length = t.totalSize.toNat)
    (h : t.outputs[j]? = some file) : (t.outputSlice payload j file).length = file.size := by
  have := hg.end_le h
  rw [Torrent.outputSlice, List.length_take, List.length_drop]
  omega

theorem length_pieceData (hg : t.Geometry) (hpay : payload.length = t.totalSize.toNat)
    (h : index < t.numPieces) : (t.pieceData payload index).length = t.pieceSize index := by
  have := Torrent.pieceStart_add_pieceSize_le (hg.lt_numPieces_iff.1 h).le
  rw [Torrent.pieceData, List.length_take, List.length_drop]
  omega

end Payload

end PS5Torrent
