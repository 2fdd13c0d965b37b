import PS5Torrent.FileIo.Parts
import PS5Torrent.WebSeed.Parts

/-!
# No overflow

The offsets that the consumers of a metainfo compute from its sizes are the
exact ones. Each computation is run in arithmetic that stops at the first
result below `0` or above `INT64_MAX` (`checked`), and none stops.
-/

namespace PS5Torrent

variable {t : Torrent} {index : ℕ}

/-- The offset computations for a piece: its size, computed twice, and the loops
    that write it and fetch it. -/
structure Torrent.NoOverflow (t : Torrent) (index : ℕ) : Prop where
  pieceSize : torrentPieceSizeM checked t index = some (torrentPieceSize t index : ℤ)
  nextPieceSize : nextPieceSizeM checked t index = some (torrentPieceSize t index : ℤ)
  written : writePiece checked (fun _ => some ()) (fun _ _ _ _ => some ()) t.isMultiFile t
    (torrentPieceSize t index) index = some ()
  fetched : t.isMultiFile → multiFilePiece checked (fun _ _ _ _ => some ()) t index
    (torrentPieceSize t index) = some true
  fetchedSingle : singleFileOffset checked t index = some (t.pieceStart index : ℤ)

theorem forM_some {α : Type} (xs : List α) : (xs.forM fun _ => some ()) = some () := by
  induction xs with
  | nil => rfl
  | cons x xs ih => exact ih

theorem noOverflow_of_geometry (hg : t.Geometry) (h : index < t.numPieces) :
    t.NoOverflow index := by
  have hint : ∀ x, 0 ≤ x → x ≤ INT64_MAX → checked x = pure x := fun _ => checked_of_mem
  have hsize : torrentPieceSize t index = t.pieceSize index := torrentPieceSize_eq hg
  have hstart := hg.lt_numPieces_iff.1 h
  have htotal := hg.totalSize_le
  have hl := hg.one_le_pieceLength
  refine ⟨?_, ?_, ?_, fun hmulti => ?_, ?_⟩
  · rw [hsize]
    exact torrentPieceSizeM_eq hg hint
  · rw [hsize]
    exact nextPieceSizeM_eq hg hint h
  · rw [hsize, writePiece_eq _ hg hint _ h]
    split
    exacts [forM_some _, rfl]
  · rw [hsize, multiFilePiece_eq hg hmulti hint h]
    exact congrArg (· >>= fun _ => pure true) (forM_some _)
  · have hoff : (index : ℤ) * t.pieceLength = t.pieceStart index := by
      rw [Torrent.pieceStart, Nat.cast_mul, Int.toNat_of_nonneg (by omega)]
    rw [singleFileOffset, hoff]
    exact hint _ (by omega) (by omega)

/-- The geometry of an accepted metainfo is consistent: its pieces are not
    empty, not longer than the piece length, and make up the total, and no
    offset that is computed from it overflows or is negative. -/
theorem geometry_noOverflow {data : Bytes} (h : torrentParse data = some t) :
    t.Geometry ∧
    (∀ index < t.numPieces,
      1 ≤ torrentPieceSize t index ∧ (torrentPieceSize t index : ℤ) ≤ t.pieceLength) ∧
    ((∑ index ∈ Finset.range t.numPieces, torrentPieceSize t index : ℕ) : ℤ) = t.totalSize ∧
    ∀ index < t.numPieces, t.NoOverflow index := by
  have hg := geometry_of_torrentParse h
  refine ⟨hg, fun index hindex => ?_, ?_, fun index hindex => noOverflow_of_geometry hg hindex⟩
  · have hpos := hg.pieceSize_pos hindex
    have hle : t.pieceSize index ≤ t.pieceLength.toNat := Torrent.Geometry.pieceSize_le
    rw [torrentPieceSize_eq hg]
    omega
  · have hsum := hg.sum_pieceSize
    have htotal := hg.one_le_totalSize
    simp only [torrentPieceSize_eq hg]
    omega

/-- A torrent of two files, of two bytes and of one, in pieces of two bytes. -/
def twoFileTorrent : Bytes :=
  lit "d4:infod5:filesld6:lengthi2e4:pathl1:aeed6:lengthi1e4:pathl1:beee4:name1:n12:piece lengthi2e6:pieces40:aaaaaaaaaaaaaaaaaaaabbbbbbbbbbbbbbbbbbbbee"

theorem geometry_noOverflow_twoFile : ∃ t, torrentParse twoFileTorrent = some t ∧ t.Geometry ∧
    (∀ index < t.numPieces,
      1 ≤ torrentPieceSize t index ∧ (torrentPieceSize t index : ℤ) ≤ t.pieceLength) ∧
    ((∑ index ∈ Finset.range t.numPieces, torrentPieceSize t index : ℕ) : ℤ) = t.totalSize ∧
    ∀ index < t.numPieces, t.NoOverflow index :=
  have hparse := torrentParse_eq_parsed (show (torrentParse twoFileTorrent).isSome by decide +kernel)
  ⟨_, hparse, geometry_noOverflow hparse⟩

end PS5Torrent
