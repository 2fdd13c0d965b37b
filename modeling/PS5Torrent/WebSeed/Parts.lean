import PS5Torrent.WebSeed

/-!
# The parts of a piece at a web seed

The loop of `fetch_multi_file_piece` fetches, in their order, the parts of
the files that the piece meets (`multiFilePiece_eq`), the empty parts of
empty files inside the piece included. Its arithmetic meets no result outside
`0..INT64_MAX`.
-/

namespace PS5Torrent

open FileLayout

variable {m : Type → Type} [Monad m] [LawfulMonad m] {uint64 : ℤ → m ℤ}
  (fetchPart : TorrentFile → ℤ → ℕ → ℕ → m Unit) (a b : ℕ)

/-- The loop over the files fetches the parts. -/
theorem fetchFiles_eq (hint : ∀ x, 0 ≤ x → x ≤ INT64_MAX → uint64 x = pure x) (hab : a < b)
    (hb : (b : ℤ) ≤ INT64_MAX) : ∀ (files : List TorrentFile) (start : ℕ),
    (∀ file ∈ files, 0 ≤ file.length) →
    ((start + total TorrentFile.size files : ℕ) : ℤ) ≤ INT64_MAX →
    fetchFiles uint64 fetchPart a b (b - a) files start (min b start - a) =
      (parts TorrentFile.size a b files start).forM (actOn fetchPart) >>= fun _ =>
        pure (min b (start + total TorrentFile.size files) - a)
  | [], start, _, _ => by
    rw [fetchFiles, parts, total_nil, add_zero]
    exact (pure_bind PUnit.unit fun _ => pure _).symm
  | file :: files, start, hfiles, hend => by
    have hlen : 0 ≤ file.length := hfiles file List.mem_cons_self
    have hsize : (file.size : ℤ) = file.length := Int.toNat_of_nonneg hlen
    rw [total_cons] at hend
    have ih := fetchFiles_eq hint hab hb files (start + file.size)
      (fun f hf => hfiles f (List.mem_cons_of_mem _ hf)) (by rwa [add_assoc])
    rw [add_assoc, ← total_cons] at ih
    rw [fetchFiles]
    by_cases hstart : start < b
    case neg =>
      rw [if_neg (by omega), parts_of_le (by omega)]
      have hpos : min b start = min b (start + total TorrentFile.size (file :: files)) := by omega
      rw [hpos]
      exact (pure_bind PUnit.unit fun _ => pure _).symm
    have hfileEnd : uint64 (start + file.length) = pure ((start + file.size : ℕ) : ℤ) := by
      rw [hint _ (by omega) (by omega), Nat.cast_add, hsize]
    rw [if_pos (by omega), parts]
    dsimp only
    rw [hfileEnd, pure_bind]
    have hcond : ((a : ℤ) < (start + file.size : ℕ) ∧ (b : ℤ) > start) ↔
        (a < start + file.size ∧ start < b) := by omega
    by_cases hmeets : a < start + file.size ∧ start < b
    case neg =>
      rw [if_neg (mt hcond.1 hmeets), if_neg hmeets]
      have hoff : min b start - a = min b (start + file.size) - a := by omega
      rw [hoff, ih]
    rw [if_pos (hcond.2 hmeets), if_pos hmeets]
    have hrangeFrom : (if (a : ℤ) > start then uint64 (a - start) else pure 0) =
        pure ((a - start : ℕ) : ℤ) := by
      split
      · rw [hint _ (by omega) (by omega)]
        congr 1
        omega
      · congr 1
        omega
    have hrangeTo : (if (b : ℤ) < (start + file.size : ℕ) then uint64 (b - start)
        else uint64 ((start + file.size : ℕ) - start)) =
          pure ((min b (start + file.size) - start : ℕ) : ℤ) := by
      split
      · rw [hint _ (by omega) (by omega)]
        congr 1
        omega
      · rw [hint _ (by omega) (by omega)]
        congr 1
        omega
    have hpartLen : uint64 (((min b (start + file.size) - start : ℕ) : ℤ) - (a - start : ℕ)) =
        pure ((partOf TorrentFile.size a b file start).len : ℤ) := by
      rw [hint _ (by omega) (by omega), partOf]
      congr 1
      dsimp only
      omega
    have hnext : min b start - a + (partOf TorrentFile.size a b file start).len =
        min b (start + file.size) - a := by
      rw [partOf]
      dsimp only
      omega
    have hpos : min b start - a = start - a := by omega
    rw [hrangeFrom, pure_bind, hrangeTo, pure_bind, hpartLen, pure_bind, Int.toNat_natCast, hnext, ih,
      hpos, ← bind_assoc]
    rfl

variable {fetchPart} {t : Torrent} {index : ℕ}

/-- The parts of the files of a torrent that a piece meets. -/
def Torrent.piecePartsAll (t : Torrent) (index : ℕ) : List (FileLayout.Part TorrentFile) :=
  parts TorrentFile.size (t.pieceStart index) (t.pieceStart index + t.pieceSize index) t.files 0

/-- A whole piece is fetched part by part. -/
theorem multiFilePiece_eq (hg : t.Geometry) (hmulti : t.isMultiFile)
    (hint : ∀ x, 0 ≤ x → x ≤ INT64_MAX → uint64 x = pure x) (h : index < t.numPieces) :
    multiFilePiece uint64 fetchPart t index (t.pieceSize index) =
      (t.piecePartsAll index).forM (actOn fetchPart) >>= fun _ => pure true := by
  have hstart := hg.lt_numPieces_iff.1 h
  have hpos := hg.pieceSize_pos h
  have hend := Torrent.pieceStart_add_pieceSize_le hstart.le
  have htotal := hg.totalSize_le
  have hoff : (index : ℤ) * t.pieceLength = t.pieceStart index := by
    have hl := hg.one_le_pieceLength
    rw [Torrent.pieceStart, Nat.cast_mul, Int.toNat_of_nonneg (by omega)]
  have hfiles := hg.total_files hmulti
  have heq := fetchFiles_eq fetchPart (t.pieceStart index)
    (t.pieceStart index + t.pieceSize index) hint (by omega) (by omega) t.files 0
    (hg.multi hmulti).2.1 (by omega)
  rw [Nat.min_zero, Nat.zero_sub, Nat.add_sub_cancel_left, Nat.cast_zero, Nat.cast_add] at heq
  have hcomplete : min (t.pieceStart index + t.pieceSize index)
      (0 + total TorrentFile.size t.files) - t.pieceStart index = t.pieceSize index := by omega
  rw [multiFilePiece, hoff, hint _ (by omega) (by omega), pure_bind,
    hint _ (by omega) (by omega), pure_bind, heq, bind_assoc, hcomplete]
  simp only [pure_bind, decide_true]
  rfl

end PS5Torrent
