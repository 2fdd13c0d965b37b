import PS5Torrent.TorrentMgr.Lifecycle

/-!
# The worker of a batch

A worker has a copy of the metainfo. It fetches the same bytes from the same
servers as with the metainfo itself (`webSeedFetchPieces_clone`), and its
buffer keeps the size of the batch.
-/

namespace PS5Torrent

open Effect

variable {t : Torrent} {net : Net} {job : WebSeedJob}

/-! ## The copy -/

theorem cstr_strdup (s : Option Bytes) (default : Bytes) :
    cstr ((strdup s).getD default) = cstr (s.getD default) := by
  cases s with
  | none => rfl
  | some s => exact cstr_cstr s

theorem trySeeds_map_cstr (fetch : Bytes → FetchM Unit) (seeds : List Bytes) :
    trySeeds fetch (seeds.map cstr) = trySeeds fetch seeds := by
  induction seeds with
  | nil => rfl
  | cons seed seeds ih => rw [List.map_cons, trySeeds, trySeeds, cstr_cstr, ih]

theorem singleFileUrl_clone (seed : Bytes) :
    singleFileUrl (torrentCloneForWorker t) seed = singleFileUrl t seed := by
  have hname : cstr ((torrentCloneForWorker t).outputName.getD []) = cstr (t.outputName.getD []) := by
    have hclone : (torrentCloneForWorker t).outputName = strdup t.outputName := by
      simp only [Torrent.outputName, torrentCloneForWorker, strdup]
      cases t.fileName with
      | none => rfl
      | some name => rfl
    rw [hclone, cstr_strdup]
  rw [singleFileUrl, singleFileUrl, hname]

/-- The files of the copy are asked for under the same URLs. -/
theorem multiFileUrl_clone (seed : Bytes) (file : TorrentFile) :
    multiFileUrl (torrentCloneForWorker t) seed { file with path := strdup file.path } =
      multiFileUrl t seed file := by
  simp only [multiFileUrl, torrentCloneForWorker, cstr_strdup]

theorem fetchFiles_map {m : Type → Type} [Monad m] {uint64 : ℤ → m ℤ}
    {fetchPart fetchPart' : TorrentFile → ℤ → ℕ → ℕ → m Unit} {f : TorrentFile → TorrentFile}
    (hlength : ∀ file, (f file).length = file.length)
    (hfetch : ∀ file, fetchPart (f file) = fetchPart' file) (pieceStart pieceEnd : ℤ) (length : ℕ)
    (files : List TorrentFile) (fileOffset : ℤ) (outPos : ℕ) :
    fetchFiles uint64 fetchPart pieceStart pieceEnd length (files.map f) fileOffset outPos =
      fetchFiles uint64 fetchPart' pieceStart pieceEnd length files fileOffset outPos := by
  induction files generalizing fileOffset outPos with
  | nil => rfl
  | cons file files ih => simp only [List.map_cons, fetchFiles, hlength, hfetch, ih]

theorem fetchMultiFilePiece_clone (seed : Bytes) (pieceIndex bufferPos length : ℕ) :
    fetchMultiFilePiece net (torrentCloneForWorker t) seed pieceIndex bufferPos length =
      fetchMultiFilePiece net t seed pieceIndex bufferPos length := by
  have hpart (file : TorrentFile) : fetchPart net (torrentCloneForWorker t) seed bufferPos
      { file with path := strdup file.path } = fetchPart net t seed bufferPos file := by
    funext rangeFrom outPos partLen
    rw [fetchPart, fetchPart, multiFileUrl_clone]
  have hfiles (pieceStart pieceEnd : ℤ) :
      fetchFiles (fun x => pure (toUInt64 x)) (fetchPart net (torrentCloneForWorker t) seed bufferPos)
          pieceStart pieceEnd length (torrentCloneForWorker t).files 0 0 =
        fetchFiles (fun x => pure (toUInt64 x)) (fetchPart net t seed bufferPos) pieceStart pieceEnd
          length t.files 0 0 :=
    fetchFiles_map (f := fun file => { file with path := strdup file.path }) (fun _ => rfl) hpart
      pieceStart pieceEnd length t.files 0 0
  simp only [fetchMultiFilePiece, multiFilePiece, hfiles]
  rfl

theorem fetchBatch_clone (seed : Bytes) (piece offset : ℕ) (sizes : List ℕ) :
    fetchBatch net (torrentCloneForWorker t) seed piece offset sizes =
      fetchBatch net t seed piece offset sizes := by
  induction sizes generalizing piece offset with
  | nil => rfl
  | cons size sizes ih => rw [fetchBatch, fetchBatch, fetchMultiFilePiece_clone, ih]

/-- The worker fetches what the metainfo says. -/
theorem webSeedFetchPieces_clone (first : ℕ) (sizes : List ℕ) :
    webSeedFetchPieces net (torrentCloneForWorker t) first sizes =
      webSeedFetchPieces net t first sizes := by
  have hfetch (seed : Bytes) : (if (torrentCloneForWorker t).isMultiFile then
        fetchBatch net (torrentCloneForWorker t) seed first 0 sizes
      else fetchSingleFile net (torrentCloneForWorker t) seed first (toSize sizes.sum)) =
      if t.isMultiFile then fetchBatch net t seed first 0 sizes
      else fetchSingleFile net t seed first (toSize sizes.sum) := by
    rw [fetchBatch_clone, fetchSingleFile, fetchSingleFile, singleFileUrl_clone]
    rfl
  rw [webSeedFetchPieces, webSeedFetchPieces]
  simp only [hfetch]
  rw [← trySeeds_map_cstr _ t.webSeeds]
  rfl

/-! ## The buffer -/

theorem respects_trySeeds {R : Fetch → Fetch → Prop} [IsPreorder Fetch R]
    {fetch : Bytes → FetchM Unit} (hfetch : ∀ seed, Respects R (fetch seed)) {seeds : List Bytes} :
    Respects R (trySeeds fetch seeds) := by
  induction seeds with
  | nil => exact respects_throw _
  | cons seed seeds ih =>
    exact respects_ite (fun _ => ih) fun _ => (hfetch _).tryCatch fun _ => ih

/-- The worker keeps the size of the buffer. -/
theorem WebSeedJob.Ok.fetch (h : job.Ok t) (hg : t.Geometry) : (fetchWebSeedPiece net job).Ok t := by
  refine { h with length := ?_ }
  have hkeeps : Respects (KeepsLength job.pieceSizes.sum)
      (webSeedFetchPieces net job.torrent job.firstPiece job.pieceSizes) := by
    rw [h.torrent, webSeedFetchPieces_clone, webSeedFetchPieces]
    exact respects_ite (fun _ => respects_throw _) fun _ =>
      respects_trySeeds (keepsLength_batch hg h.isBatch)
  exact hkeeps _ h.length

end PS5Torrent
