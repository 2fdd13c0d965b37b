import PS5Torrent.WebSeed.Fetch

/-!
# Fetching batches of pieces

A batch of consecutive pieces (`Torrent.IsBatch`) is fetched from the first
seed that delivers it. Against seeds that serve the payload, what is fetched
is the payload from the first piece on (`buffer_of_webSeedFetchPieces`), and
one well-formed seed is enough, unless an empty file lies strictly inside a
piece (`exists_webSeedFetchPieces`). One piece is a batch of its own
(`webSeedFetchPiece_eq`).
-/

namespace PS5Torrent

open FileLayout Effect

/-- The sizes are those of consecutive pieces. -/
def Torrent.IsBatch (t : Torrent) : ℕ → List ℕ → Prop
  | _, [] => True
  | first, size :: sizes =>
    first < t.numPieces ∧ size = t.pieceSize first ∧ t.IsBatch (first + 1) sizes

/-- The part of the payload that a batch covers. -/
def Torrent.batchData (t : Torrent) (payload : Bytes) (first : ℕ) (sizes : List ℕ) : Bytes :=
  (payload.drop (t.pieceStart first)).take sizes.sum

/-- No piece of a batch has an empty file strictly inside. -/
def Torrent.NoEmptyInsideBatch (t : Torrent) (first : ℕ) (sizes : List ℕ) : Prop :=
  ∀ i, first ≤ i → i < first + sizes.length → t.NoEmptyInside i

variable {net : Net} {t : Torrent} {payload seed : Bytes} {sizes : List ℕ} {s s' : Fetch}
  {first bufferPos index : ℕ}

theorem Torrent.IsBatch.lt_numPieces (h : t.IsBatch first sizes) {i : ℕ} (hl : first ≤ i)
    (hu : i < first + sizes.length) : i < t.numPieces := by
  induction sizes generalizing first with
  | nil => exact absurd hl (not_le.2 hu)
  | cons size sizes ih =>
    obtain ⟨hfirst, -, hrest⟩ := h
    rcases hl.eq_or_lt with rfl | hlt
    · exact hfirst
    · rw [List.length_cons] at hu
      exact ih hrest hlt (by omega)

/-- The pieces of a batch are not empty. -/
theorem Torrent.IsBatch.zero_notMem (hg : t.Geometry) (h : t.IsBatch first sizes) : 0 ∉ sizes := by
  induction sizes generalizing first with
  | nil => exact List.not_mem_nil
  | cons size sizes ih =>
    obtain ⟨hfirst, rfl, hrest⟩ := h
    have hpos := hg.pieceSize_pos hfirst
    rw [List.mem_cons, not_or]
    exact ⟨hpos.ne, ih hrest⟩

theorem noEmptyInsideBatch_cons {size : ℕ} : t.NoEmptyInsideBatch first (size :: sizes) ↔
    t.NoEmptyInside first ∧ t.NoEmptyInsideBatch (first + 1) sizes := by
  constructor
  · intro h
    refine ⟨h first le_rfl (by rw [List.length_cons]; omega), fun i hl hu => ?_⟩
    exact h i (by omega) (by rw [List.length_cons]; omega)
  · rintro ⟨hfirst, hrest⟩ i hl hu
    rw [List.length_cons] at hu
    rcases hl.eq_or_lt with rfl | hlt
    exacts [hfirst, hrest i hlt (by omega)]

/-- The next piece of a batch begins where the first one ends. -/
theorem Torrent.IsBatch.pieceStart_succ (hg : t.Geometry) {size size' : ℕ}
    (h : t.IsBatch first (size :: size' :: sizes)) :
    t.pieceStart (first + 1) = t.pieceStart first + size := by
  obtain ⟨hfirst, rfl, hnext, -⟩ := h
  rw [hg.pieceSize_of_ne hfirst (by omega), Torrent.pieceStart, Torrent.pieceStart, add_one_mul]

theorem Torrent.IsBatch.sum_le (hg : t.Geometry) (h : t.IsBatch first sizes)
    (hstart : t.pieceStart first ≤ t.totalSize.toNat) :
    t.pieceStart first + sizes.sum ≤ t.totalSize.toNat := by
  induction sizes generalizing first with
  | nil => exact hstart
  | cons size sizes ih =>
    have hend := Torrent.pieceStart_add_pieceSize_le hstart
    rw [← h.2.1] at hend
    cases sizes with
    | nil => rwa [List.sum_singleton]
    | cons size' sizes =>
      have hsucc := h.pieceStart_succ hg
      have hrest := ih h.2.2 (by omega)
      rw [List.sum_cons]
      omega

/-- The data of a batch is the data of its pieces. -/
theorem batchData_cons (hg : t.Geometry) {size : ℕ} (h : t.IsBatch first (size :: sizes)) :
    t.batchData payload first (size :: sizes) =
      t.pieceData payload first ++ t.batchData payload (first + 1) sizes := by
  rw [Torrent.batchData, Torrent.batchData, List.sum_cons, List.take_add, Torrent.pieceData,
    List.drop_drop, ← h.2.1]
  cases sizes with
  | nil => rw [List.sum_nil, List.take_zero, List.take_zero]
  | cons size' sizes => rw [h.pieceStart_succ hg]

theorem length_batchData (hg : t.Geometry) (hpay : payload.length = t.totalSize.toNat)
    (h : t.IsBatch first sizes) (hstart : t.pieceStart first ≤ t.totalSize.toNat) :
    (t.batchData payload first sizes).length = sizes.sum := by
  have := h.sum_le hg hstart
  rw [Torrent.batchData, List.length_take, List.length_drop]
  omega

/-! ## From one seed -/

/-- A batch that is fetched piece by piece is in its place. -/
theorem buffer_of_fetchBatch (hg : t.Geometry) (hpay : payload.length = t.totalSize.toNat)
    (hserves : net.Serves t payload seed) (hmulti : t.isMultiFile) (hbatch : t.IsBatch first sizes)
    (hbuf : bufferPos + sizes.sum ≤ s.buffer.length)
    (h : fetchBatch net t seed first bufferPos sizes s = .ok () s') :
    t.NoEmptyInsideBatch first sizes ∧
      s'.buffer = memcpyAt s.buffer bufferPos (t.batchData payload first sizes) := by
  induction sizes generalizing first bufferPos s with
  | nil =>
    obtain ⟨-, rfl⟩ := pure_eq_ok.1 h
    exact ⟨fun i hl hu => absurd hl (not_le.2 hu), (memcpyAt_nil _ _).symm⟩
  | cons size sizes ih =>
    rw [batchData_cons hg hbatch]
    obtain ⟨hfirst, rfl, hrest⟩ := hbatch
    rw [List.sum_cons] at hbuf
    rw [fetchBatch] at h
    obtain ⟨_, s₁, hpiece, h⟩ := bind_eq_ok.1 h
    obtain ⟨hno, hcopy⟩ := buffer_of_fetchMultiFilePiece hg hpay hserves hmulti hfirst (by omega) hpiece
    have hlen := length_pieceData hg hpay hfirst
    have hbuf₁ : s₁.buffer.length = s.buffer.length := by
      rw [hcopy, length_memcpyAt (by omega)]
    obtain ⟨hnos, hcopies⟩ := ih hrest (by omega) h
    refine ⟨noEmptyInsideBatch_cons.2 ⟨hno, hnos⟩, ?_⟩
    rw [hcopies, hcopy, ← hlen, memcpyAt_memcpyAt (by omega)]

theorem exists_fetchBatch (hg : t.Geometry) (hpay : payload.length = t.totalSize.toNat)
    (hserves : net.Serves t payload seed) (hseed : t.SeedWellFormed seed) (hmulti : t.isMultiFile)
    (hbatch : t.IsBatch first sizes) (hno : t.NoEmptyInsideBatch first sizes) :
    ∃ s', fetchBatch net t seed first bufferPos sizes s = .ok () s' := by
  induction sizes generalizing first bufferPos s with
  | nil => exact ⟨s, rfl⟩
  | cons size sizes ih =>
    obtain ⟨hfirst, rfl, hrest⟩ := hbatch
    obtain ⟨hno, hnos⟩ := noEmptyInsideBatch_cons.1 hno
    obtain ⟨s₁, hpiece⟩ := exists_fetchMultiFilePiece bufferPos s hg hpay
      hserves hseed hmulti hfirst hno
    rw [fetchBatch, bind_of_ok hpiece]
    exact ih hrest hnos

theorem keepsLength_fetchBatch {n : ℕ} (hg : t.Geometry) (hmulti : t.isMultiFile)
    (hbatch : t.IsBatch first sizes) (hn : bufferPos + sizes.sum ≤ n) :
    Respects (KeepsLength n) (fetchBatch net t seed first bufferPos sizes) := by
  induction sizes generalizing first bufferPos with
  | nil => exact respects_pure _
  | cons size sizes ih =>
    obtain ⟨hfirst, rfl, hrest⟩ := hbatch
    rw [List.sum_cons] at hn
    exact (keepsLength_fetchMultiFilePiece hg hmulti hfirst (by omega)).bind fun _ =>
      ih hrest (by omega)

/-- A range of the single file is a range of the payload. -/
theorem drop_take_single (hg : t.Geometry) (hpay : payload.length = t.totalSize.toNat)
    (hmulti : ¬t.isMultiFile) {start length : ℕ} :
    ((t.outputSlice payload 0 ⟨t.outputName, t.length⟩).drop start).take length =
      (payload.drop start).take length := by
  have hsize : TorrentFile.size ⟨t.outputName, t.length⟩ = payload.length := by
    rw [hpay, hg.single hmulti]
    rfl
  rw [Torrent.outputSlice, hsize, List.take_zero, total_nil, List.drop_zero, List.take_length]

theorem outputs_single (hmulti : ¬t.isMultiFile) :
    t.outputs[0]? = some ⟨t.outputName, t.length⟩ := by
  rw [Torrent.outputs, if_neg hmulti]
  rfl

section SingleFile

variable (hg : t.Geometry) (hmulti : ¬t.isMultiFile)

include hg hmulti

omit hmulti in
/-- The request for a span of the single file. -/
theorem fetchSingleFile_eq {url : Bytes} {length : ℕ} (hurl : singleFileUrl t seed = some url)
    (hend : t.pieceStart first ≤ t.totalSize.toNat) :
    fetchSingleFile net t seed first length =
      httpFetchRange net url (t.pieceStart first : ℕ) length 0 := by
  have htotal := hg.totalSize_le
  have hsize := hg.one_le_totalSize
  have hl := hg.one_le_pieceLength
  have hoff : (first : ℤ) * t.pieceLength = t.pieceStart first := by
    rw [Torrent.pieceStart, Nat.cast_mul, Int.toNat_of_nonneg (by omega)]
  rw [fetchSingleFile, hurl, orFail, pure_bind, singleFileOffset, hoff, pure_bind,
    toUInt64_of_mem (Int.natCast_nonneg _) (by omega)]

/-- A span of the single file that is fetched is in the buffer. -/
theorem buffer_of_fetchSingleFile (hpay : payload.length = t.totalSize.toNat)
    (hserves : net.Serves t payload seed) {length : ℕ}
    (hend : t.pieceStart first + length ≤ t.totalSize.toNat)
    (h : fetchSingleFile net t seed first length s = .ok () s') :
    s'.buffer = memcpyAt s.buffer 0 ((payload.drop (t.pieceStart first)).take length) := by
  have hsize : TorrentFile.size ⟨t.outputName, t.length⟩ = t.totalSize.toNat := by
    rw [hg.single hmulti]
    rfl
  cases hurl : singleFileUrl t seed with
  | none =>
    rw [fetchSingleFile, hurl] at h
    exact absurd h throw_ne_ok
  | some url =>
    rw [fetchSingleFile_eq hg hurl (by omega)] at h
    have hcopy := (buffer_of_httpFetchRange hg hpay hserves (outputs_single hmulti)
      ((if_neg hmulti).trans hurl) (by omega) h).2
    rwa [drop_take_single hg hpay hmulti] at hcopy

theorem exists_fetchSingleFile (hpay : payload.length = t.totalSize.toNat)
    (hserves : net.Serves t payload seed) (hseed : t.SeedWellFormed seed) {length : ℕ}
    (hpos : 0 < length) (hend : t.pieceStart first + length ≤ t.totalSize.toNat) :
    ∃ s', fetchSingleFile net t seed first length s = .ok () s' := by
  have hsize : TorrentFile.size ⟨t.outputName, t.length⟩ = t.totalSize.toNat := by
    rw [hg.single hmulti]
    rfl
  have hj := outputs_single hmulti
  obtain ⟨url, host, port, path, hurl, hparse, hrequest⟩ := hseed _ (List.mem_of_getElem? hj)
  have hurl' : singleFileUrl t seed = some url := (if_neg hmulti).symm.trans hurl
  rw [fetchSingleFile_eq hg hurl' (by omega)]
  exact ⟨_, httpFetchRange_of_serves hg hpay hserves hj hurl hparse (hrequest _ _ (by omega)) hpos
    (by omega)⟩

omit hg hmulti in
theorem keepsLength_fetchSingleFile {n length : ℕ} (hn : length ≤ n) :
    Respects (KeepsLength n) (fetchSingleFile net t seed first length) :=
  (keepsLength_orFail n _).bind fun url => (respects_pure _).bind fun offset =>
    keepsLength_httpFetchRange _ _ (by omega)

end SingleFile

/-! ## From the seeds in turn -/

/-- Whether a seed is tried. -/
def IsHttpSeed (seed : Bytes) : Prop := (lit "http://").isPrefixOf (cstr seed)

section Seeds

variable {R : Fetch → Fetch → Prop} [IsPreorder Fetch R] {fetch : Bytes → FetchM Unit}
  {seeds : List Bytes}

/-- What is delivered is delivered by one of the seeds. -/
theorem trySeeds_eq_ok (hfetch : ∀ seed, Respects R (fetch seed))
    (h : trySeeds fetch seeds s = .ok () s') :
    ∃ seed ∈ seeds, IsHttpSeed seed ∧ ∃ s₁, R s s₁ ∧ fetch (cstr seed) s₁ = .ok () s' := by
  induction seeds generalizing s with
  | nil => exact absurd h throw_ne_ok
  | cons seed seeds ih =>
    rw [trySeeds] at h
    split at h
    case isTrue =>
      obtain ⟨seed', hmem, hrest⟩ := ih h
      exact ⟨seed', List.mem_cons_of_mem _ hmem, hrest⟩
    case isFalse hhttp =>
      cases hseed : fetch (cstr seed) s with
      | ok _ s₁ =>
        rw [tryCatch_of_ok hseed] at h
        injection h with _ hs
        have hhttp : IsHttpSeed seed := by
          rw [IsHttpSeed]
          rwa [Bool.not_eq_true', Bool.not_eq_false] at hhttp
        exact ⟨seed, List.mem_cons_self, hhttp, s, refl_of R s, by rw [hseed, hs]⟩
      | error _ s₁ =>
        rw [tryCatch_of_error hseed] at h
        obtain ⟨seed', hmem, hhttp', s₂, hr, hs₂⟩ := ih h
        exact ⟨seed', List.mem_cons_of_mem _ hmem, hhttp', s₂,
          trans_of R ((hfetch _).error hseed) hr, hs₂⟩

/-- One seed that delivers is enough. -/
theorem exists_trySeeds (hfetch : ∀ seed, Respects R (fetch seed)) (hmem : seed ∈ seeds)
    (hhttp : IsHttpSeed seed) (hseed : ∀ s₁, R s s₁ → ∃ s', fetch (cstr seed) s₁ = .ok () s') :
    ∃ s', trySeeds fetch seeds s = .ok () s' := by
  induction seeds generalizing s with
  | nil => cases hmem
  | cons seed' seeds ih =>
    rw [trySeeds]
    split
    case isTrue hskip =>
      rcases List.mem_cons.1 hmem with rfl | hmem
      · rw [IsHttpSeed] at hhttp
        rw [hhttp] at hskip
        exact absurd hskip (by decide)
      · exact ih hmem hseed
    case isFalse =>
      cases hfirst : fetch (cstr seed') s with
      | ok _ s₁ => exact ⟨s₁, tryCatch_of_ok hfirst⟩
      | error _ s₁ =>
        rw [tryCatch_of_error hfirst]
        have hr := (hfetch (cstr seed')).error hfirst
        rcases List.mem_cons.1 hmem with rfl | hmem
        · obtain ⟨s', hs'⟩ := hseed s (refl_of R s)
          rw [hfirst] at hs'
          cases hs'
        · exact ih hmem fun s₂ hs₂ => hseed s₂ (trans_of R hr hs₂)

end Seeds

/-! ## Batches -/

section Batch

variable (hg : t.Geometry) (hpay : payload.length = t.totalSize.toNat)
  (hserves : ∀ seed ∈ t.webSeeds, IsHttpSeed seed → net.Serves t payload (cstr seed))
  (hbatch : t.IsBatch first sizes) (hne : sizes ≠ [])

include hg hbatch hne

theorem Torrent.IsBatch.start_le : t.pieceStart first ≤ t.totalSize.toNat := by
  cases sizes with
  | nil => exact absurd rfl hne
  | cons size sizes => exact (hg.lt_numPieces_iff.1 hbatch.1).le

omit hne in
theorem keepsLength_batch : ∀ seed, Respects (KeepsLength sizes.sum)
    (if t.isMultiFile then fetchBatch net t seed first 0 sizes
      else fetchSingleFile net t seed first (toSize sizes.sum)) := fun seed =>
  respects_ite (fun hmulti => keepsLength_fetchBatch hg hmulti hbatch (by omega)) fun _ =>
    keepsLength_fetchSingleFile (Nat.mod_le _ _)

theorem toSize_sum : toSize sizes.sum = sizes.sum := by
  have hend := hbatch.sum_le hg (hbatch.start_le hg hne)
  have htotal := hg.totalSize_le
  rw [INT64_MAX] at htotal
  exact toSize_of_lt (by omega)

include hpay hserves

/-- What a batch that is fetched puts in the buffer; it has no empty file inside a piece. -/
theorem buffer_of_webSeedFetchPieces (hbuf : s.buffer.length = sizes.sum)
    (h : webSeedFetchPieces net t first sizes s = .ok () s') :
    t.NoEmptyInsideBatch first sizes ∧ s'.buffer = t.batchData payload first sizes := by
  have hstart := hbatch.start_le hg hne
  rw [webSeedFetchPieces] at h
  split at h
  · exact absurd h throw_ne_ok
  obtain ⟨seed, hmem, hhttp, s₁, hkeeps, h⟩ := trySeeds_eq_ok (keepsLength_batch hg hbatch) h
  have hbuf₁ := hkeeps hbuf
  have hlen := length_batchData hg hpay hbatch hstart
  split at h
  case isTrue hmulti =>
    obtain ⟨hno, hcopy⟩ := buffer_of_fetchBatch hg hpay (hserves seed hmem hhttp) hmulti hbatch
      (by omega) h
    exact ⟨hno, by rw [hcopy, memcpyAt_zero (by omega)]⟩
  case isFalse hmulti =>
    rw [toSize_sum hg hbatch hne] at h
    have hcopy := buffer_of_fetchSingleFile hg hmulti hpay (hserves seed hmem hhttp)
      (hbatch.sum_le hg hstart) h
    rw [← Torrent.batchData, memcpyAt_zero (by omega)] at hcopy
    exact ⟨fun i _ _ h => absurd h hmulti, hcopy⟩

/-- A batch without empty files inside its pieces is delivered by a well-formed seed. -/
theorem exists_webSeedFetchPieces (hmem : seed ∈ t.webSeeds) (hhttp : IsHttpSeed seed)
    (hseed : t.SeedWellFormed (cstr seed)) (hno : t.NoEmptyInsideBatch first sizes) :
    ∃ s', webSeedFetchPieces net t first sizes s = .ok () s' := by
  have hstart := hbatch.start_le hg hne
  rw [webSeedFetchPieces, if_neg (not_or.2 ⟨hne, hbatch.zero_notMem hg⟩)]
  refine exists_trySeeds (keepsLength_batch hg hbatch) hmem hhttp fun s₁ _ => ?_
  split
  case isTrue hmulti =>
    exact exists_fetchBatch hg hpay (hserves seed hmem hhttp) hseed hmulti hbatch hno
  case isFalse hmulti =>
    rw [toSize_sum hg hbatch hne]
    have hpos : 0 < sizes.sum := by
      cases sizes with
      | nil => exact absurd rfl hne
      | cons size sizes =>
        have := hg.pieceSize_pos hbatch.1
        rw [List.sum_cons, hbatch.2.1]
        omega
    exact exists_fetchSingleFile hg hmulti hpay (hserves seed hmem hhttp) hseed hpos
      (hbatch.sum_le hg hstart)

end Batch

/-- A single piece is a batch. -/
theorem webSeedFetchPiece_eq (hg : t.Geometry) (h : index < t.numPieces) :
    webSeedFetchPiece net t index (t.pieceSize index) =
      webSeedFetchPieces net t index [t.pieceSize index] := by
  have hpos := hg.pieceSize_pos h
  have hbatch : t.IsBatch index [t.pieceSize index] := ⟨h, rfl, trivial⟩
  have hsize := toSize_sum hg hbatch (List.cons_ne_nil _ _)
  have hcond : ¬([t.pieceSize index] = [] ∨ 0 ∈ [t.pieceSize index]) :=
    not_or.2 ⟨List.cons_ne_nil _ _, hbatch.zero_notMem hg⟩
  rw [webSeedFetchPiece, if_neg hpos.ne', webSeedFetchPieces, if_neg hcond, hsize,
    List.sum_singleton]
  congr 1
  funext seed
  rw [fetchBatch, fetchBatch]
  congr 1
  exact (bind_pure _).symm

end PS5Torrent
