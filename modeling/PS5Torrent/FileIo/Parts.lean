import PS5Torrent.FileIo
import PS5Torrent.Torrent.Geometry

/-!
# The parts of a piece

The loop of `file_writer_write_piece` writes, in their order, the nonempty
parts of the files that the piece covers (`writePiece_eq`). Its arithmetic
meets no result outside `0..INT64_MAX`.
-/

namespace PS5Torrent

open FileLayout

variable {m : Type → Type} [Monad m] [LawfulMonad m] {int64 : ℤ → m ℤ}
  (writePart : TorrentFile → ℤ → ℕ → ℕ → m Unit) (a b : ℕ)

/-- The loop over the files writes the nonempty parts. -/
theorem writeFiles_eq (hint : ∀ x, 0 ≤ x → x ≤ INT64_MAX → int64 x = pure x) (hab : a < b)
    (hb : (b : ℤ) ≤ INT64_MAX) : ∀ (files : List TorrentFile) (start : ℕ),
    (∀ file ∈ files, 0 ≤ file.length) →
    ((start + total TorrentFile.size files : ℕ) : ℤ) ≤ INT64_MAX →
    writeFiles int64 writePart a b (b - a) files start (min b start - a) =
      ((parts TorrentFile.size a b files start).filter fun part => 0 < part.len).forM
        (actOn writePart)
  | [], start, _, _ => by rw [writeFiles, parts]; rfl
  | file :: files, start, hfiles, hend => by
    have hlen : 0 ≤ file.length := hfiles file List.mem_cons_self
    have hsize : (file.size : ℤ) = file.length := Int.toNat_of_nonneg hlen
    rw [total_cons] at hend
    have ih := writeFiles_eq hint hab hb files (start + file.size)
      (fun f hf => hfiles f (List.mem_cons_of_mem _ hf)) (by rwa [add_assoc])
    rw [writeFiles]
    by_cases hstart : start < b
    case neg =>
      rw [if_neg (by omega), parts_of_le (by omega)]
      rfl
    have hfileEnd : int64 (start + file.length) = pure ((start + file.size : ℕ) : ℤ) := by
      rw [hint _ (by omega) (by omega), Nat.cast_add, hsize]
    rw [if_pos (by omega), hfileEnd, pure_bind, parts]
    have hcond : ((a : ℤ) < (start + file.size : ℕ) ∧ (b : ℤ) > start) ↔
        (a < start + file.size ∧ start < b) := by omega
    by_cases hmeets : a < start + file.size ∧ start < b
    case neg =>
      rw [if_neg (mt hcond.1 hmeets), if_neg hmeets]
      have hoff : min b start - a = min b (start + file.size) - a := by omega
      rw [hoff, ih]
    rw [if_pos (hcond.2 hmeets), if_pos hmeets]
    have hwriteStart : (if (a : ℤ) > start then int64 (a - start) else pure 0) =
        pure ((a - start : ℕ) : ℤ) := by
      split
      · rw [hint _ (by omega) (by omega)]
        congr 1
        omega
      · congr 1
        omega
    have hwriteEnd : (if (b : ℤ) < (start + file.size : ℕ) then int64 (b - start)
        else pure file.length) = pure ((min b (start + file.size) - start : ℕ) : ℤ) := by
      split
      · rw [hint _ (by omega) (by omega)]
        congr 1
        omega
      · congr 1
        omega
    have hwriteLen : int64 (((min b (start + file.size) - start : ℕ) : ℤ) - (a - start : ℕ)) =
        pure ((partOf TorrentFile.size a b file start).len : ℤ) := by
      rw [hint _ (by omega) (by omega), partOf]
      congr 1
      dsimp only
      omega
    have hle : ((partOf TorrentFile.size a b file start).len : ℤ) ≤ INT64_MAX := by
      rw [partOf]
      dsimp only
      omega
    rw [hwriteStart, pure_bind, hwriteEnd, pure_bind, hwriteLen, pure_bind,
      toUInt64_of_mem (by omega) hle, Int.toNat_natCast]
    have hnext : min b start - a + (partOf TorrentFile.size a b file start).len =
        min b (start + file.size) - a := by
      rw [partOf]
      dsimp only
      omega
    dsimp only
    split
    case isTrue hpos =>
      rw [List.filter_cons_of_pos (by simpa using hpos), hnext, ih]
      have hpos : min b start - a = start - a := by omega
      rw [hpos]
      rfl
    case isFalse hpos =>
      rw [List.filter_cons_of_neg (by simpa using hpos)]
      have hoff : min b start - a = min b (start + file.size) - a := by omega
      rw [hoff, ih]

/-- The nonempty parts of the files of a torrent that a piece covers. -/
def Torrent.pieceParts (t : Torrent) (index : ℕ) : List (FileLayout.Part TorrentFile) :=
  (parts TorrentFile.size (t.pieceStart index) (t.pieceStart index + t.pieceSize index)
    t.files 0).filter fun part => 0 < part.len

/-- A whole piece is written at its position in the single file, or to the
    nonempty parts it covers. -/
theorem writePiece_eq {t : Torrent} {index : ℕ} (hg : t.Geometry)
    (hint : ∀ x, 0 ≤ x → x ≤ INT64_MAX → int64 x = pure x) (writeSingle : ℤ → m Unit)
    (h : index < t.numPieces) :
    writePiece int64 writeSingle writePart t.isMultiFile t (t.pieceSize index) index =
      if t.isMultiFile then (t.pieceParts index).forM (actOn writePart)
      else writeSingle (t.pieceStart index) := by
  have hstart := hg.lt_numPieces_iff.1 h
  have hpos := hg.pieceSize_pos h
  have hend := Torrent.pieceStart_add_pieceSize_le hstart.le
  have htotal := hg.totalSize_le
  have hoff : (index : ℤ) * t.pieceLength = t.pieceStart index := by
    have hl := hg.one_le_pieceLength
    rw [Torrent.pieceStart, Nat.cast_mul, Int.toNat_of_nonneg (by omega)]
  rw [writePiece, hoff, hint _ (by omega) (by omega), pure_bind]
  cases hmulti : t.isMultiFile with
  | false => rfl
  | true =>
    have hfiles := hg.total_files hmulti
    have heq := writeFiles_eq writePart (t.pieceStart index)
      (t.pieceStart index + t.pieceSize index) hint (by omega) (by omega) t.files 0
      (hg.multi hmulti).2.1 (by omega)
    rw [Nat.min_zero, Nat.zero_sub, Nat.add_sub_cancel_left, Nat.cast_zero, Nat.cast_add] at heq
    rw [if_neg (by simp), hint _ (by omega) (by omega), pure_bind, heq]
    rfl

end PS5Torrent
