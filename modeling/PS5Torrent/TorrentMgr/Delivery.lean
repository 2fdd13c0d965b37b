import PS5Torrent.TorrentMgr.Results

/-!
# Delivered batches

What a batch of web seeds is for: the worker gets the bytes of the payload,
the same as piece by piece, and when they are collected, every piece of the
batch verifies and becomes complete, as long as the writes to disk succeed
(`Delivered`). Against seeds that serve the payload this is so exactly if no
empty file lies strictly inside a piece of the batch (`delivered_iff`): such a
file is asked for with a range of no bytes, which the request refuses.
-/

namespace PS5Torrent

open Sha1 Work Effect TorrentMgr FileLayout

/-- The writes of the pieces of a batch, one after the other, succeed. -/
def WritesSucceed (data : Bytes) : ℕ → ℕ → List ℕ → Work → Prop
  | _, _, [], _ => True
  | index, offset, size :: sizes, w =>
    let piece := (data.drop offset).take size
    let w' := (commitPiece index piece w).2
    (w.writePiece index piece).1 = true ∧
      WritesSucceed data (index + 1) (offset + size) sizes
        { w' with mt.downloaded := toSize (w'.mt.downloaded + size) }

/-- The batch of a job in a slot comes from the web seeds and becomes complete. -/
structure Delivered (net : Net) (m : TorrentMgr) (slot : ℕ) (job : WebSeedJob) (t : Torrent)
    (payload : Bytes) : Prop where
  ok : (fetchWebSeedPiece net job).ok
  data_eq : (fetchWebSeedPiece net job).data =
    (payload.drop (t.pieceStart job.firstPiece)).take job.pieceSizes.sum
  length : (fetchWebSeedPiece net job).data.length = job.pieceSizes.sum
  /-- Each piece alone gives the same bytes. -/
  each : ∀ (i size : ℕ) (s : Fetch), job.pieceSizes[i]? = some size → s.buffer.length = size →
    ∃ s', webSeedFetchPiece net t (job.firstPiece + i) size s = .ok () s' ∧
      s'.buffer = ((fetchWebSeedPiece net job).data.drop (job.pieceSizes.take i).sum).take size
  /-- Whenever it is collected, its pieces become complete. -/
  collects : ∀ (events : List Event) (m' : TorrentMgr) (k : ℕ) (mt' : ManagedTorrent),
    Collects (m.run events) m' →
    m'.webSeedJobs[slot]? = some (some (fetchWebSeedPiece net job)) →
    m'.live job.generation = some k → m'.torrents[k]? = some mt' →
    WritesSucceed (fetchWebSeedPiece net job).data job.firstPiece 0 job.pieceSizes
      ⟨m'.toWorld, mt'⟩ →
    ∃ mt'' ∈ (m'.collectWebSeedJob slot).torrents[k]?, ∀ i, job.firstPiece ≤ i →
      i < job.firstPiece + job.pieceSizes.length → mt''.pieceMgr.state i = some .complete

variable {net : Net} {m m' : TorrentMgr} {mt : ManagedTorrent} {job : WebSeedJob} {t : Torrent}
  {payload data : Bytes} {first offset saved slot : ℕ} {sizes : List ℕ} {held : ℕ → ℕ}
  {w w₀ : Work}

/-! ## The pieces of a batch -/

/-- A piece of a batch, and its place in the data. -/
theorem Torrent.IsBatch.piece (hg : t.Geometry) (hpay : payload.length = t.totalSize.toNat)
    (h : t.IsBatch first sizes) {i size : ℕ} (hi : sizes[i]? = some size) :
    first + i < t.numPieces ∧ size = t.pieceSize (first + i) ∧
      ((t.batchData payload first sizes).drop (sizes.take i).sum).take size =
        t.pieceData payload (first + i) := by
  induction sizes generalizing first i with
  | nil => cases hi
  | cons size' sizes ih =>
    have hdata : t.batchData payload first (size' :: sizes) = _ := batchData_cons hg h
    obtain ⟨hfirst, rfl, hrest⟩ := h
    have hlen := length_pieceData hg hpay hfirst
    rw [hdata]
    cases i with
    | zero =>
      obtain rfl := Option.some.inj hi
      rw [List.take_zero, List.sum_nil, List.drop_zero, ← hlen, List.take_left]
      exact ⟨hfirst, hlen, rfl⟩
    | succ i =>
      obtain ⟨hlt, hsize, hslice⟩ := ih hrest hi
      have hindex : first + 1 + i = first + (i + 1) := by omega
      rw [hindex] at hlt hsize hslice
      rw [List.take_succ_cons, List.sum_cons, ← List.drop_drop, ← hlen, List.drop_left]
      exact ⟨hlt, hsize, hslice⟩

/-! ## Collecting -/

/-- A piece with its hash that is written is complete. -/
theorem commitPiece_of_written (hfits : w.mt.pieceMgr.Fits w.mt.torrent)
    (hindex : first < w.mt.torrent.numPieces) (hhash : sha1Hash data = w.mt.torrent.pieceHash first)
    (hwrite : (w.writePiece first data).1 = true) :
    (commitPiece first data w).1 = true ∧
      (commitPiece first data w).2.mt.pieceMgr = (pieceMgrComplete w.mt.pieceMgr first data).2 := by
  have hcomplete : (pieceMgrComplete w.mt.pieceMgr first data).1 = true := by
    rw [pieceMgrComplete_eq hfits hindex hhash]
  have hsame : (w.writePiece first data).2.mt.pieceMgr = w.mt.pieceMgr := rfl
  rw [commitPiece, if_neg (not_not.2 hhash), ← Prod.mk.eta (p := w.writePiece first data), hwrite]
  dsimp only
  rw [if_neg (by decide), hsame]
  exact ⟨hcomplete, rfl⟩

/-- The loop over the pieces of a batch, if they have their hashes and are written. -/
theorem commitPieces_of_written (saved : ℕ)
    (h : w₀.Committing held first sizes.length w)
    (hg : w₀.mt.torrent.Geometry) (hbatch : w₀.mt.torrent.IsBatch first sizes)
    (hpay : payload.length = w₀.mt.torrent.totalSize.toNat)
    (hhash : ∀ i < w₀.mt.torrent.numPieces,
      sha1Hash (w₀.mt.torrent.pieceData payload i) = w₀.mt.torrent.pieceHash i)
    (hdata : data.drop offset = w₀.mt.torrent.batchData payload first sizes)
    (hwrites : WritesSucceed data first offset sizes w) :
    ∃ w', commitPieces data first offset saved sizes w = (true, saved + sizes.length, w') ∧
      ∀ i, first ≤ i ∧ i < first + sizes.length ∨ w.mt.pieceMgr.state i = some .complete →
        w'.mt.pieceMgr.state i = some .complete := by
  induction sizes generalizing first offset saved w with
  | nil =>
    refine ⟨w, rfl, fun i hi => ?_⟩
    rcases hi with ⟨hl, hu⟩ | hcomplete
    · exact absurd hl (not_le.2 hu)
    · exact hcomplete
  | cons size sizes ih =>
    have hcons : w₀.mt.torrent.batchData payload first (size :: sizes) = _ :=
      batchData_cons hg hbatch
    obtain ⟨hindex, rfl, hrest⟩ := hbatch
    have hlen := length_pieceData hg hpay hindex
    have htorrent : w.mt.torrent = w₀.mt.torrent := by rw [h.torrent]
    have hpiece : (data.drop offset).take (w₀.mt.torrent.pieceSize first) =
        w₀.mt.torrent.pieceData payload first := by rw [hdata, hcons, ← hlen, List.take_left]
    have hnext : data.drop (offset + w₀.mt.torrent.pieceSize first) =
        w₀.mt.torrent.batchData payload (first + 1) sizes := by
      rw [← List.drop_drop, hdata, hcons, ← hlen, List.drop_left]
    have hskip :
        ¬(first ≥ w.mt.pieceMgr.numPieces ∨ w.mt.pieceMgr.state first = some .complete) := by
      rw [h.fits.numPieces, h.ledger.state_first]
      exact not_or.2 ⟨not_le.2 hindex, fun h => nomatch h⟩
    rw [WritesSucceed, hpiece] at hwrites
    obtain ⟨hwrite, hwrites⟩ := hwrites
    have hfits : w.mt.pieceMgr.Fits w.mt.torrent := by
      rw [htorrent]
      exact h.fits
    have hindex' : first < w.mt.torrent.numPieces := by rwa [htorrent]
    have hhash' : sha1Hash (w₀.mt.torrent.pieceData payload first) =
        w.mt.torrent.pieceHash first := by
      rw [htorrent]
      exact hhash first hindex
    obtain ⟨hok, hpm⟩ := commitPiece_of_written hfits hindex' hhash' hwrite
    rcases committing_commitPiece h hg hindex hlen with ⟨hfail, -⟩ | ⟨-, hcommit⟩
    · rw [hok] at hfail
      cases hfail
    rw [commitPieces, if_neg hskip, hpiece]
    generalize hr : commitPiece first (w₀.mt.torrent.pieceData payload first) w = r
      at hok hpm hcommit hwrites
    obtain ⟨ok, w₁⟩ := r
    obtain rfl : ok = true := hok
    obtain ⟨w', hcall, hstate⟩ := ih (saved + 1) hcommit hrest hnext hwrites
    refine ⟨w', hcall.trans ?_, fun i hi => hstate i ?_⟩
    · rw [List.length_cons, Nat.add_right_comm, Nat.add_assoc]
    · have hpm' : w₁.mt.pieceMgr.state i =
          if first = i then some .complete else w.mt.pieceMgr.state i := by
        rw [hpm, state_pieceMgrComplete hfits hindex' hhash']
      rw [List.length_cons] at hi
      by_cases hfirst : first = i
      · exact .inr (hpm'.trans (if_pos hfirst))
      · rcases hi with hrange | hcomplete
        · exact .inl (by omega)
        · exact .inr ((hpm'.trans (if_neg hfirst)).trans hcomplete)

/-- A batch whose data are those of the payload is complete once it is collected. -/
theorem complete_of_applyWebSeed (h : w.Committing held job.firstPiece job.pieceSizes.length w)
    (hg : w.mt.torrent.Geometry) (hjob : job.Ok w.mt.torrent) (hok : job.ok)
    (hpay : payload.length = w.mt.torrent.totalSize.toNat)
    (hhash : ∀ i < w.mt.torrent.numPieces,
      sha1Hash (w.mt.torrent.pieceData payload i) = w.mt.torrent.pieceHash i)
    (hdata : job.data = w.mt.torrent.batchData payload job.firstPiece job.pieceSizes)
    (hwrites : WritesSucceed job.data job.firstPiece 0 job.pieceSizes w) {i : ℕ}
    (hl : job.firstPiece ≤ i) (hu : i < job.firstPiece + job.pieceSizes.length) :
    (applyWebSeed job w).mt.pieceMgr.state i = some .complete := by
  have hindex : ¬job.firstPiece ≥ w.mt.pieceMgr.numPieces := by
    rw [h.fits.numPieces]
    exact not_le.2 (hjob.isBatch.lt_numPieces le_rfl (by omega))
  obtain ⟨w', hcall, hstate⟩ := commitPieces_of_written 0 h hg hjob.isBatch hpay hhash
    (by rw [List.drop_zero, hdata]) hwrites
  rw [applyWebSeed, if_neg hindex, if_pos hok, hcall]
  dsimp only
  rw [if_pos rfl, pieceMgr_noteProgress]
  exact hstate i (.inl ⟨hl, hu⟩)

/-- The record of a torrent after a job of its generation is collected. -/
theorem getElem?_collectWebSeedJob_of_live (job : WebSeedJob) {k : ℕ}
    (hlive : m.live job.generation = some k)
    (hmt : m.torrents[k]? = some mt) (hslot : m.webSeedJobs[slot]? = some (some job))
    (hdone : job.done) : (m.collectWebSeedJob slot).torrents[k]? =
      some (applyWebSeed job ⟨m.toWorld, mt⟩).mt := by
  have hget : m.webSeedJobs[slot]?.join = some job := by rw [hslot, Option.join_some]
  rw [collectWebSeedJob, hget]
  dsimp only
  rw [hdone, if_neg (by decide), onLive, hlive]
  dsimp only
  rw [onTorrent_eq hmt]
  exact List.getElem?_set_self (List.getElem?_eq_some_iff.1 hmt).1

/-! ## The whole way -/

/-- The worker of a batch, from the metainfo of the torrent. -/
theorem fetchWebSeedPiece_eq (net : Net) (hjob : job.Ok t) :
    (fetchWebSeedPiece net job).ok = succeeds
        (webSeedFetchPieces net t job.firstPiece job.pieceSizes) ⟨job.data, 0⟩ ∧
      (fetchWebSeedPiece net job).data = (final
        (webSeedFetchPieces net t job.firstPiece job.pieceSizes) ⟨job.data, 0⟩).buffer := by
  rw [← webSeedFetchPieces_clone, ← hjob.torrent]
  exact ⟨rfl, rfl⟩

section Served

variable (hjob : job.Ok t) (hg : t.Geometry) (hpay : payload.length = t.totalSize.toNat)
  (hserves : ∀ seed ∈ t.webSeeds, IsHttpSeed seed → net.Serves t payload (cstr seed))

include hjob hg hpay hserves

/-- A worker that succeeds has found no empty file inside a piece, and has the payload. -/
theorem fetched_of_ok (hok : (fetchWebSeedPiece net job).ok) :
    t.NoEmptyInsideBatch job.firstPiece job.pieceSizes ∧
      (fetchWebSeedPiece net job).data = t.batchData payload job.firstPiece job.pieceSizes := by
  obtain ⟨heq, hdata⟩ := fetchWebSeedPiece_eq net hjob
  rw [heq] at hok
  obtain ⟨_, hs'⟩ := exists_of_succeeds hok
  rw [hdata]
  exact buffer_of_webSeedFetchPieces hg hpay hserves hjob.isBatch hjob.nonempty hjob.length hs'

/-- Without empty files inside the pieces, one well-formed seed is enough for the worker. -/
theorem ok_of_noEmptyInside {seed : Bytes} (hmem : seed ∈ t.webSeeds) (hhttp : IsHttpSeed seed)
    (hseed : t.SeedWellFormed (cstr seed))
    (hno : t.NoEmptyInsideBatch job.firstPiece job.pieceSizes) :
    (fetchWebSeedPiece net job).ok := by
  obtain ⟨s', hs'⟩ := exists_webSeedFetchPieces (s := ⟨job.data, 0⟩) hg hpay hserves hjob.isBatch
    hjob.nonempty hmem hhttp hseed hno
  rw [(fetchWebSeedPiece_eq net hjob).1, Effect.succeeds.eq_1, hs']

/-- A piece of the batch alone. -/
theorem piece_of_noEmptyInside {seed : Bytes} (hmem : seed ∈ t.webSeeds) (hhttp : IsHttpSeed seed)
    (hseed : t.SeedWellFormed (cstr seed))
    (hno : t.NoEmptyInsideBatch job.firstPiece job.pieceSizes) {i size : ℕ} {s : Fetch}
    (hi : job.pieceSizes[i]? = some size) (hlen : s.buffer.length = size) :
    ∃ s', webSeedFetchPiece net t (job.firstPiece + i) size s = .ok () s' ∧
      s'.buffer = t.pieceData payload (job.firstPiece + i) := by
  obtain ⟨hlt, rfl, -⟩ := hjob.isBatch.piece hg hpay hi
  have hbatch : t.IsBatch (job.firstPiece + i) [t.pieceSize (job.firstPiece + i)] :=
    ⟨hlt, rfl, trivial⟩
  have hne : [t.pieceSize (job.firstPiece + i)] ≠ [] := List.cons_ne_nil _ _
  have hsingle : t.NoEmptyInsideBatch (job.firstPiece + i) [t.pieceSize (job.firstPiece + i)] := by
    intro j hl hu
    rw [List.length_singleton] at hu
    obtain ⟨hlen', -⟩ := List.getElem?_eq_some_iff.1 hi
    exact hno j (by omega) (by omega)
  obtain ⟨s', hs'⟩ := exists_webSeedFetchPieces (s := s) hg hpay hserves hbatch hne hmem hhttp hseed
    hsingle
  have hbuf := (buffer_of_webSeedFetchPieces hg hpay hserves hbatch hne
    (by rw [hlen, List.sum_singleton]) hs').2
  rw [batchData_cons hg hbatch, Torrent.batchData, List.sum_nil, List.take_zero,
    List.append_nil] at hbuf
  rw [webSeedFetchPiece_eq hg hlt]
  exact ⟨s', hs', hbuf⟩

end Served

/-- In every reachable state, and for every batch in a slot: against seeds that serve the payload,
    one of which is well-formed, the batch is delivered exactly if no empty file lies strictly
    inside one of its pieces. -/
theorem delivered_iff (hm : Reachable m) (hmt : mt ∈ m.torrents)
    (hslot : m.webSeedJobs[slot]? = some (some job)) (hgen : job.generation = mt.generation)
    (hpay : payload.length = mt.torrent.totalSize.toNat)
    (hhash : ∀ i < mt.torrent.numPieces,
      sha1Hash (mt.torrent.pieceData payload i) = mt.torrent.pieceHash i)
    (hserves : ∀ seed ∈ mt.torrent.webSeeds, IsHttpSeed seed →
      net.Serves mt.torrent payload (cstr seed))
    (hseed : ∃ seed ∈ mt.torrent.webSeeds, IsHttpSeed seed ∧
      mt.torrent.SeedWellFormed (cstr seed)) :
    Delivered net m slot job mt.torrent payload ↔
      mt.torrent.NoEmptyInsideBatch job.firstPiece job.pieceSizes := by
  have hokMt := ((sound_of_reachable hm).torrents mt hmt).ok
  have hjob := hokMt.batches job (List.mem_of_getElem? hslot) hgen
  have hg := hokMt.geometry_of_batch hjob
  obtain ⟨seed, hmem, hhttp, hseed⟩ := hseed
  refine ⟨fun h => (fetched_of_ok hjob hg hpay hserves h.ok).1, fun hno => ?_⟩
  have hok := ok_of_noEmptyInside hjob hg hpay hserves hmem hhttp hseed hno
  have hdata := (fetched_of_ok hjob hg hpay hserves hok).2
  have hstart := hjob.isBatch.start_le hg hjob.nonempty
  refine ⟨hok, hdata, ?_, fun i size s hi hlen => ?_,
    fun events m' k mt' hcollects hslot' hlive hmt' hwrites => ?_⟩
  · rw [hdata, length_batchData hg hpay hjob.isBatch hstart]
  · obtain ⟨s', hs', hbuf⟩ := piece_of_noEmptyInside hjob hg hpay hserves hmem hhttp hseed hno hi hlen
    rw [hdata, (hjob.isBatch.piece hg hpay hi).2.2]
    exact ⟨s', hs', hbuf⟩
  · -- The torrent that is collected for has the same pieces, as the copy of the worker tells.
    have hsound' := sound_of_moves (Collects.stays hcollects).moves
      (sound_of_reachable (hm.run events))
    have hmt'' := hsound'.torrents mt' (List.mem_of_getElem? hmt')
    obtain ⟨mt₁, hmt₁, hgen', hstate⟩ := live_eq_some hlive
    obtain rfl := Option.some.inj (hmt'.symm.trans hmt₁)
    have hjob' := hmt''.ok.batches _ (List.mem_of_getElem? hslot') hgen'.symm
    have hg' := hmt''.ok.geometry_of_batch hjob'
    have hclone : torrentCloneForWorker mt'.torrent = torrentCloneForWorker mt.torrent :=
      hjob'.torrent.symm.trans hjob.torrent
    have htotal : mt'.torrent.totalSize = mt.torrent.totalSize :=
      congrArg (·.totalSize) hclone
    have hnum : mt'.torrent.numPieces = mt.torrent.numPieces := congrArg (·.numPieces) hclone
    have hpieceHash (i : ℕ) : mt'.torrent.pieceHash i = mt.torrent.pieceHash i :=
      congrArg (·.pieceHash i) hclone
    have hpieceData (i : ℕ) : mt'.torrent.pieceData payload i = mt.torrent.pieceData payload i :=
      congrArg (·.pieceData payload i) hclone
    have hbatchData : mt'.torrent.batchData payload job.firstPiece job.pieceSizes =
        mt.torrent.batchData payload job.firstPiece job.pieceSizes :=
      congrArg (·.batchData payload job.firstPiece job.pieceSizes) hclone
    refine ⟨_, getElem?_collectWebSeedJob_of_live (fetchWebSeedPiece net job) hlive hmt' hslot' rfl,
      fun i hl hu => ?_⟩
    refine complete_of_applyWebSeed (committing_of_slot hmt'' hstate hslot' hgen'.symm) hg' hjob' hok
      (hpay.trans (congrArg Int.toNat htotal.symm)) (fun i hi => ?_) (hdata.trans hbatchData.symm)
      hwrites hl hu
    rw [hpieceData, hpieceHash]
    exact hhash i (hnum ▸ hi)

/-! ### An empty file -/

/-- Files of the bytes `x` and `y`, and an empty one. -/
def xFile : TorrentFile := ⟨some (lit "a"), 1⟩
def emptyFile : TorrentFile := ⟨some (lit "b"), 0⟩
def yFile : TorrentFile := ⟨some (lit "c"), 1⟩

/-- A torrent with a web seed, of the one piece `xy` in these files. -/
def seededFiles (files : List TorrentFile) : Bytes :=
  lit "d4:infod5:filesl" ++ files.flatMap (fun file => lit "d6:lengthi" ++
      Decimal.print file.size ++ lit "e4:pathl1:" ++ file.path.getD [] ++ lit "ee") ++
    lit "e4:name1:n12:piece lengthi2e6:pieces20:" ++ sha1Hash (lit "xy") ++
    lit "e8:url-list9:http://h/e"

/-- A network with one server, which has the files. -/
def fileNet : Net where
  resolve _ := some 1
  exchange _ _ _ request := some [lit "HTTP/1.1 206 P\r\n\r\n",
    if request = rangeRequest (lit "/n/a") (lit "h") 0 1 then lit "x" else lit "y"]

/-- A manager that has scheduled the batch of the piece. -/
def batchMgr (files : List TorrentFile) : TorrentMgr :=
  (TorrentMgr.init (sysWith []) (fun _ => []) calmEnv).run
    [.addRaw (seededFiles files) (lit "/d") [], .start 0, .tick]

/-- The metainfo of the torrent, and its batch. -/
def IsSeeded (files : List TorrentFile) (t : Torrent) (job : WebSeedJob) : Prop :=
  t.isMultiFile = true ∧ t.files = files ∧ t.name = some (lit "n") ∧ t.totalSize = 2 ∧
    t.pieceLength = 2 ∧ t.numPieces = 1 ∧ t.pieces = some (sha1Hash (lit "xy")) ∧
    t.webSeeds = [lit "http://h/"] ∧ job.firstPiece = 0 ∧ job.pieceSizes = [2]

instance (files : List TorrentFile) (t : Torrent) (job : WebSeedJob) :
    Decidable (IsSeeded files t job) := inferInstanceAs (Decidable (_ ∧ _))

theorem reachable_batchMgr (files : List TorrentFile) : Reachable (batchMgr files) :=
  ⟨_, _, _, _, rfl⟩

variable {files : List TorrentFile}

theorem answers206_fileNet {body : Bytes} (hbody : body ≠ []) :
    Answers206 [lit "HTTP/1.1 206 P\r\n\r\n", body] body := by
  refine ⟨fun segment hsegment => ?_, lit "HTTP/1.1 206 P\r\n\r\n", ?_, ?_, fun p hp hne hend => ?_,
    Nat.le_of_ble_eq_true rfl, rfl⟩
  · rcases List.mem_cons.1 hsegment with rfl | hsegment
    · exact List.cons_ne_nil _ _
    · rwa [List.mem_singleton.1 hsegment]
  · rw [List.flatten_cons, List.flatten_cons, List.flatten_nil, List.append_nil]
  · exact List.isSuffixOf_iff_suffix.1 rfl
  · -- A proper prefix of the header does not end in an empty line.
    have hproper : ∀ k < (lit "HTTP/1.1 206 P\r\n\r\n").length,
        emptyLine.isSuffixOf ((lit "HTTP/1.1 206 P\r\n\r\n").take k) = false := by decide +kernel
    have htake := List.prefix_iff_eq_take.1 hp
    have hlt : p.length < (lit "HTTP/1.1 206 P\r\n\r\n").length := by
      refine lt_of_le_of_ne hp.length_le fun hlen => hne ?_
      exact hp.eq_of_length hlen
    have hfalse := hproper p.length hlt
    rw [← htake, List.isSuffixOf_iff_suffix.2 hend] at hfalse
    cases hfalse

/-- The URLs of the files. -/
theorem fileUrl_isSeeded (h : IsSeeded files t job) :
    fileUrl t (lit "http://h/") xFile = some (lit "http://h/n/a") ∧
      fileUrl t (lit "http://h/") emptyFile = some (lit "http://h/n/b") ∧
      fileUrl t (lit "http://h/") yFile = some (lit "http://h/n/c") := by
  obtain ⟨hmulti, -, hname, -⟩ := h
  simp only [fileUrl, if_pos hmulti, multiFileUrl, hname]
  exact ⟨rfl, rfl, rfl⟩

/-- The server has the bytes of the files in their places. -/
theorem serves_fileNet (h : IsSeeded files t job)
    (hslices : ∀ j file, files[j]? = some file → file = emptyFile ∨
      file = xFile ∧ t.outputSlice (lit "xy") j file = lit "x" ∨
      file = yFile ∧ t.outputSlice (lit "xy") j file = lit "y") :
    fileNet.Serves t (lit "xy") (lit "http://h/") := by
  intro j file url host port path hj hurl hparse
  obtain ⟨hx, -, hy⟩ := fileUrl_isSeeded h
  rw [Torrent.outputs, if_pos h.1, h.2.1] at hj
  refine ⟨1, rfl, fun n start length hpos hle => ?_⟩
  rcases hslices j file hj with rfl | ⟨rfl, hslice⟩ | ⟨rfl, hslice⟩
  · have hsize : emptyFile.size = 0 := rfl
    omega
  · have hsize : xFile.size = 1 := rfl
    obtain ⟨rfl, rfl⟩ : start = 0 ∧ length = 1 := by omega
    obtain rfl := Option.some.inj (hx.symm.trans hurl)
    have hparse' : parseHttpUrl (lit "http://h/n/a") 256 = some (lit "h", 80, lit "/n/a") := rfl
    obtain ⟨rfl, rfl, rfl⟩ : lit "h" = host ∧ 80 = port ∧ lit "/n/a" = path := by
      simpa using hparse'.symm.trans hparse
    refine ⟨_, rfl, ?_⟩
    rw [hslice]
    exact answers206_fileNet (List.cons_ne_nil _ _)
  · have hsize : yFile.size = 1 := rfl
    obtain ⟨rfl, rfl⟩ : start = 0 ∧ length = 1 := by omega
    obtain rfl := Option.some.inj (hy.symm.trans hurl)
    have hparse' : parseHttpUrl (lit "http://h/n/c") 256 = some (lit "h", 80, lit "/n/c") := rfl
    obtain ⟨rfl, rfl, rfl⟩ : lit "h" = host ∧ 80 = port ∧ lit "/n/c" = path := by
      simpa using hparse'.symm.trans hparse
    refine ⟨_, rfl, ?_⟩
    rw [hslice]
    exact answers206_fileNet (List.cons_ne_nil _ _)

/-- The requests for the files fit the buffer. -/
theorem seedWellFormed_isSeeded (h : IsSeeded files t job)
    (hfiles : ∀ file ∈ files, file = emptyFile ∨ file = xFile ∨ file = yFile) :
    t.SeedWellFormed (lit "http://h/") := by
  have hfits : ∀ path ∈ [lit "/n/a", lit "/n/b", lit "/n/c"], ∀ start < 2, ∀ length < 2,
      (rangeRequest path (lit "h") (start : ℕ) length).length < 1024 := by decide +kernel
  obtain ⟨hx, hempty, hy⟩ := fileUrl_isSeeded h
  intro file hfile
  rw [Torrent.outputs, if_pos h.1, h.2.1] at hfile
  rcases hfiles file hfile with rfl | rfl | rfl
  · have hsize : emptyFile.size = 0 := rfl
    refine ⟨_, lit "h", 80, lit "/n/b", hempty, rfl, fun start length hle => ?_⟩
    exact hfits _ (by simp) start (by omega) length (by omega)
  · have hsize : xFile.size = 1 := rfl
    refine ⟨_, lit "h", 80, lit "/n/a", hx, rfl, fun start length hle => ?_⟩
    exact hfits _ (by simp) start (by omega) length (by omega)
  · have hsize : yFile.size = 1 := rfl
    refine ⟨_, lit "h", 80, lit "/n/c", hy, rfl, fun start length hle => ?_⟩
    exact hfits _ (by simp) start (by omega) length (by omega)

theorem pieceStart_isSeeded (h : IsSeeded files t job) :
    t.pieceStart 0 = 0 ∧ t.pieceSize 0 = 2 := by
  obtain ⟨-, -, -, htotal, hlength, -⟩ := h
  rw [Torrent.pieceSize, Torrent.pieceStart, htotal, hlength]
  exact ⟨rfl, rfl⟩

theorem pieceHash_isSeeded (h : IsSeeded files t job) :
    ∀ i < t.numPieces, sha1Hash (t.pieceData (lit "xy") i) = t.pieceHash i := by
  obtain ⟨hstart, hsize⟩ := pieceStart_isSeeded h
  obtain ⟨-, -, -, -, -, hnum, hpieces, -⟩ := h
  intro i hi
  obtain rfl : i = 0 := by omega
  rw [Torrent.pieceData, hstart, hsize, Torrent.pieceHash, hpieces]
  rfl

/-- What is asked of the seeds of the torrent. -/
theorem seeds_isSeeded (h : IsSeeded files t job)
    (hslices : ∀ j file, files[j]? = some file → file = emptyFile ∨
      file = xFile ∧ t.outputSlice (lit "xy") j file = lit "x" ∨
      file = yFile ∧ t.outputSlice (lit "xy") j file = lit "y") :
    (∀ seed ∈ t.webSeeds, IsHttpSeed seed → fileNet.Serves t (lit "xy") (cstr seed)) ∧
      ∃ seed ∈ t.webSeeds, IsHttpSeed seed ∧ t.SeedWellFormed (cstr seed) := by
  have hcstr : cstr (lit "http://h/") = lit "http://h/" := rfl
  have hseeds := h.2.2.2.2.2.2.2.1
  rw [hseeds]
  refine ⟨fun seed hmem _ => ?_, _, List.mem_singleton_self _, rfl, ?_⟩
  · rw [List.mem_singleton.1 hmem, hcstr]
    exact serves_fileNet h hslices
  · rw [hcstr]
    refine seedWellFormed_isSeeded h fun file hfile => ?_
    obtain ⟨j, hj⟩ := List.mem_iff_getElem?.1 hfile
    rcases hslices j file hj with hempty | ⟨hx, -⟩ | ⟨hy, -⟩
    · exact .inl hempty
    · exact .inr (.inl hx)
    · exact .inr (.inr hy)

/-- With the empty file at the end, the batch is delivered. -/
theorem delivered_iff_end :
    ∃ mt ∈ (batchMgr [xFile, yFile, emptyFile]).torrents,
      ∃ job, (batchMgr [xFile, yFile, emptyFile]).webSeedJobs[0]? = some (some job) ∧
        Delivered fileNet (batchMgr [xFile, yFile, emptyFile]) 0 job mt.torrent (lit "xy") := by
  have hfacts : ∃ mt ∈ (batchMgr [xFile, yFile, emptyFile]).torrents[0]?,
      ∃ job ∈ (batchMgr [xFile, yFile, emptyFile]).webSeedJobs[0]?.join,
        job.generation = mt.generation ∧ IsSeeded [xFile, yFile, emptyFile] mt.torrent job := by
    decide +kernel
  obtain ⟨mt, hmt, job, hjob, hgen, h⟩ := hfacts
  have hmem := List.mem_of_getElem? hmt
  have hslot := Option.join_eq_some_iff.1 hjob
  obtain ⟨hmulti, hfiles, -, htotal, -⟩ := id h
  have houtputs : mt.torrent.outputs = [xFile, yFile, emptyFile] := by
    rw [Torrent.outputs, if_pos hmulti, hfiles]
  have hpay : (lit "xy").length = mt.torrent.totalSize.toNat := by
    rw [htotal]
    rfl
  obtain ⟨hserves, hseed⟩ := seeds_isSeeded h fun j file hj => by
    rw [Torrent.outputSlice, houtputs]
    rcases j with _ | _ | _ | j
    · exact .inr (.inl ⟨(Option.some.inj hj).symm, Option.some.inj hj ▸ rfl⟩)
    · exact .inr (.inr ⟨(Option.some.inj hj).symm, Option.some.inj hj ▸ rfl⟩)
    · exact .inl (Option.some.inj hj).symm
    · cases hj
  refine ⟨mt, hmem, job, hslot, (delivered_iff (reachable_batchMgr _) hmem hslot hgen hpay
    (pieceHash_isSeeded h) hserves hseed).2 fun i hl hu _ j file hj hsize hinside => ?_⟩
  obtain ⟨-, -, -, -, -, -, -, -, hfirst, hsizes⟩ := id h
  rw [hfirst, hsizes, List.length_singleton] at hu
  obtain rfl : i = 0 := by omega
  rw [(pieceStart_isSeeded h).1, (pieceStart_isSeeded h).2, hfiles] at hinside
  rw [hfiles] at hj
  rcases j with _ | _ | _ | j
  · obtain rfl := Option.some.inj hj
    cases hsize
  · obtain rfl := Option.some.inj hj
    cases hsize
  · exact absurd hinside.2 (by decide)
  · cases hj

/-- With the empty file between the others, the worker fails, and fails for ever, though the
    server has all the bytes. -/
theorem not_delivered_between :
    ∃ mt ∈ (batchMgr [xFile, emptyFile, yFile]).torrents,
      ∃ job, Reachable (batchMgr [xFile, emptyFile, yFile]) ∧
        (batchMgr [xFile, emptyFile, yFile]).webSeedJobs[0]? = some (some job) ∧
        job.generation = mt.generation ∧ (lit "xy").length = mt.torrent.totalSize.toNat ∧
        (∀ i < mt.torrent.numPieces,
          sha1Hash (mt.torrent.pieceData (lit "xy") i) = mt.torrent.pieceHash i) ∧
        (∀ seed ∈ mt.torrent.webSeeds, IsHttpSeed seed →
          fileNet.Serves mt.torrent (lit "xy") (cstr seed)) ∧
        (∃ seed ∈ mt.torrent.webSeeds, IsHttpSeed seed ∧
          mt.torrent.SeedWellFormed (cstr seed)) ∧
        (fetchWebSeedPiece fileNet job).ok = false ∧
        ¬Delivered fileNet (batchMgr [xFile, emptyFile, yFile]) 0 job mt.torrent (lit "xy") := by
  have hfacts : ∃ mt ∈ (batchMgr [xFile, emptyFile, yFile]).torrents[0]?,
      ∃ job ∈ (batchMgr [xFile, emptyFile, yFile]).webSeedJobs[0]?.join,
        job.generation = mt.generation ∧ (fetchWebSeedPiece fileNet job).ok = false ∧
        IsSeeded [xFile, emptyFile, yFile] mt.torrent job := by
    decide +kernel
  obtain ⟨mt, hmt, job, hjob, hgen, hfails, h⟩ := hfacts
  obtain ⟨hmulti, hfiles, -, htotal, -⟩ := id h
  have houtputs : mt.torrent.outputs = [xFile, emptyFile, yFile] := by
    rw [Torrent.outputs, if_pos hmulti, hfiles]
  have hpay : (lit "xy").length = mt.torrent.totalSize.toNat := by
    rw [htotal]
    rfl
  obtain ⟨hserves, hseed⟩ := seeds_isSeeded h fun j file hj => by
    rw [Torrent.outputSlice, houtputs]
    rcases j with _ | _ | _ | j
    · exact .inr (.inl ⟨(Option.some.inj hj).symm, Option.some.inj hj ▸ rfl⟩)
    · exact .inl (Option.some.inj hj).symm
    · exact .inr (.inr ⟨(Option.some.inj hj).symm, Option.some.inj hj ▸ rfl⟩)
    · cases hj
  refine ⟨mt, List.mem_of_getElem? hmt, job, reachable_batchMgr _, Option.join_eq_some_iff.1 hjob,
    hgen, hpay, pieceHash_isSeeded h, hserves, hseed, hfails, fun hdelivered => ?_⟩
  rw [hdelivered.ok] at hfails
  cases hfails

end PS5Torrent
