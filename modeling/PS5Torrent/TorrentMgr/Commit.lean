import PS5Torrent.TorrentMgr.Lifecycle

/-!
# Collecting a batch

The batch has left its slot, and its pieces are in hand: those that are saved
become complete one after the other, and the rest is freed at the end
(`ok_applyWebSeed`).
-/

namespace PS5Torrent

open Sha1 Slots Work Effect

/-- The holders together with one that has `n` pieces in hand, from a piece on. -/
def withRange (held : ℕ → ℕ) (first n : ℕ) : ℕ → ℕ := fun i =>
  held i + if first ≤ i ∧ i < first + n then 1 else 0

variable {t : Torrent} {pm : PieceMgr} {peers : List TorrentPeer} {held : ℕ → ℕ}
  {first n index offset saved : ℕ} {data : Bytes} {sizes : List ℕ} {w w₀ : Work}

theorem withRange_zero : withRange held first 0 = held := by
  funext i
  rw [withRange, if_neg (by omega), add_zero]

namespace Ledger

/-- The first piece in hand is requested. -/
theorem state_first (h : Ledger t pm peers (withRange held first (n + 1))) :
    pm.state first = some .requested :=
  h.state_of_held (by rw [withRange, if_pos (by omega)]; omega)

/-- The first piece in hand is complete. -/
theorem commit (h : Ledger t pm peers (withRange held first (n + 1))) (hfits : pm.Fits t)
    (hindex : first < t.numPieces) (hhash : sha1Hash data = t.pieceHash first) :
    Ledger t (pieceMgrComplete pm first data).2 peers (withRange held (first + 1) n) where
  failed i := by
    rw [state_pieceMgrComplete hfits hindex hhash]
    split
    · exact fun h => nomatch h
    · exact h.failed i
  holders i := by
    have hsum := h.holders i
    have hfirst := h.state_first
    rw [state_pieceMgrComplete hfits hindex hhash]
    rw [withRange] at hsum ⊢
    by_cases hi : first = i
    · subst hi
      rw [hfirst, if_pos rfl, if_pos (by omega)] at hsum
      rw [if_pos rfl, if_neg (by omega), if_neg (by decide)]
      omega
    · rw [if_neg hi, ← hsum]
      exact congrArg _ (congrArg _ (if_congr (by omega) rfl rfl))
  peers := h.peers

/-- The pieces in hand are freed. -/
theorem free (h : Ledger t pm peers (withRange held first n)) (hfits : pm.Fits t) :
    Ledger t (freePieces n first pm) peers held := by
  have hrange {i : ℕ} (hi : first ≤ i ∧ i < first + n) : pm.state i = some .requested :=
    h.state_of_held (by rw [withRange, if_pos hi]; omega)
  have hstate (i : ℕ) : (freePieces n first pm).state i =
      if first ≤ i ∧ i < first + n then some .free else pm.state i := by
    rw [state_freePieces fun i => hfits.numPieces ▸ hfits.state i]
    by_cases hi : first ≤ i ∧ i < first + n
    · rw [hrange hi, if_pos ⟨hi, by decide⟩, if_pos hi, Option.map_some]
    · rw [if_neg fun h => hi h.1, if_neg hi]
  refine ⟨fun i => ?_, fun i => ?_, h.peers⟩
  · rw [hstate]
    split
    · exact fun h => nomatch h
    · exact h.failed i
  · have hsum := h.holders i
    rw [hstate]
    rw [withRange] at hsum
    by_cases hi : first ≤ i ∧ i < first + n
    · rw [hrange hi, if_pos hi, if_pos rfl] at hsum
      rw [if_pos hi, if_neg (by decide)]
      omega
    · rw [if_neg hi] at hsum
      rw [if_neg hi]
      exact hsum

end Ledger

/-- Pieces that are freed at first are freed again with the others. -/
theorem freePieces_setState (hindex : first < pm.numPieces)
    (hstate : pm.state first = some .requested) :
    freePieces (n + 1) first (pm.setState first .free) = freePieces (n + 1) first pm := by
  have hfree : (pm.setState first .free).state first = some .free :=
    PieceMgr.state_setState_self (by rw [hstate]; rfl)
  rw [freePieces, freePieces, if_pos ⟨hindex, by rw [hfree]; decide⟩,
    if_pos ⟨hindex, by rw [hstate]; decide⟩, PieceMgr.setState_setState]

/-- The torrent differs only in what a batch changes. -/
def ManagedTorrent.Committed (mt mt' : ManagedTorrent) : Prop :=
  mt' = { mt with
    pieceMgr := mt'.pieceMgr, downloaded := mt'.downloaded,
    lastProgressTime := mt'.lastProgressTime, writes := mt'.writes }

theorem ManagedTorrent.Committed.trans {mt mt' mt'' : ManagedTorrent} (h : mt.Committed mt')
    (h' : mt'.Committed mt'') : mt.Committed mt'' := by
  rw [Committed] at h'
  rw [h] at h'
  exact h'

/-- The state while a batch is saved, with `n` pieces in hand. -/
structure Work.Committing (w₀ : Work) (held : ℕ → ℕ) (first n : ℕ) (w : Work) : Prop where
  torrent : w₀.mt.Committed w.mt
  world : w₀.toWorld.Moved w.toWorld
  pieces : w.mt.pieceMgr.pieces.isSome = w₀.mt.pieceMgr.pieces.isSome
  state : w.mt.state = .downloading
  fits : w.mt.pieceMgr.Fits w₀.mt.torrent
  counted : Counted w₀.mt.torrent w.mt.pieceMgr .downloading w.mt.downloaded w.mt.lastDownloaded
    w.mt.writes
  ledger : Ledger w₀.mt.torrent w.mt.pieceMgr w.mt.peers (withRange held first n)

/-- A piece is saved, or stays in hand. -/
theorem committing_commitPiece (h : w₀.Committing held first (n + 1) w)
    (hg : w₀.mt.torrent.Geometry) (hindex : first < w₀.mt.torrent.numPieces)
    (hlen : data.length = w₀.mt.torrent.pieceSize first) :
    (commitPiece first data w).1 = false ∧
        w₀.Committing held first (n + 1) (commitPiece first data w).2 ∨
      (commitPiece first data w).1 = true ∧
        w₀.Committing held (first + 1) n { (commitPiece first data w).2 with
          mt.downloaded := toSize ((commitPiece first data w).2.mt.downloaded +
            w₀.mt.torrent.pieceSize first) } := by
  have htorrent : w.mt.torrent = w₀.mt.torrent := by rw [h.torrent]
  rw [commitPiece, htorrent]
  split
  case isTrue => exact .inl ⟨rfl, h⟩
  case isFalse hhash =>
    rw [not_not] at hhash
    rw [← Prod.mk.eta (p := w.writePiece first data)]
    cases hok : (w.writePiece first data).1 with
    | false =>
      refine .inl ⟨rfl, { h with
        torrent := h.torrent.trans rfl
        world := h.world.trans ⟨rfl, le_rfl⟩
        counted := h.counted.write hhash _ }⟩
    | true =>
      have hrequested := h.ledger.state_first
      have hcounted := h.counted.complete hg h.fits hindex
        (by rw [hrequested]; exact fun h => nomatch h) TorrentState.noConfusion hhash hlen
      have hfst : (pieceMgrComplete w.mt.pieceMgr first data).1 = true := by
        rw [pieceMgrComplete_eq h.fits hindex hhash]
      have hcall : pieceMgrComplete (w.writePiece first data).2.mt.pieceMgr first data =
          (true, (pieceMgrComplete w.mt.pieceMgr first data).2) := Prod.ext hfst rfl
      dsimp only
      rw [if_neg (by decide), hcall]
      refine .inr ⟨rfl, { h with
        torrent := h.torrent.trans rfl
        world := h.world.trans ⟨rfl, le_rfl⟩
        pieces := isSome_pieces_pieceMgrComplete.trans h.pieces
        fits := h.fits.complete hindex hhash
        counted := ?_
        ledger := h.ledger.commit h.fits hindex hhash }⟩
      have hwrite : Effect.succeeds (fileWriterWritePiece w.mt.fileWriter data first) w.sys = true :=
        hok
      rw [← hwrite] at hcounted
      exact hcounted

/-- The pieces that are saved are complete; the first that is not ends the loop. -/
theorem committing_commitPieces (saved : ℕ) (h : w₀.Committing held first sizes.length w)
    (hg : w₀.mt.torrent.Geometry) (hbatch : w₀.mt.torrent.IsBatch first sizes)
    (hlen : data.length = offset + sizes.sum) :
    ∃ k ≤ sizes.length, (commitPieces data first offset saved sizes w).2.1 = saved + k ∧
      ∃ w₁, w₀.Committing held (first + k) (sizes.length - k) w₁ ∧
        (k = sizes.length ∧ (commitPieces data first offset saved sizes w).1 = true ∧
          (commitPieces data first offset saved sizes w).2.2 = w₁ ∨
        k < sizes.length ∧ (commitPieces data first offset saved sizes w).1 = false ∧
          (commitPieces data first offset saved sizes w).2.2 =
            { w₁ with mt.pieceMgr := w₁.mt.pieceMgr.setState (first + k) .free }) := by
  induction sizes generalizing first offset saved w with
  | nil => exact ⟨0, le_rfl, rfl, w, h, .inl ⟨rfl, rfl, rfl⟩⟩
  | cons size sizes ih =>
    obtain ⟨hindex, rfl, hrest⟩ := hbatch
    rw [List.sum_cons] at hlen
    rw [List.length_cons] at h ⊢
    have hskip : ¬(first ≥ w.mt.pieceMgr.numPieces ∨ w.mt.pieceMgr.state first = some .complete) := by
      rw [h.fits.numPieces, h.ledger.state_first]
      exact not_or.2 ⟨not_le.2 hindex, fun h => nomatch h⟩
    have hdata : ((data.drop offset).take (w₀.mt.torrent.pieceSize first)).length =
        w₀.mt.torrent.pieceSize first := by
      rw [List.length_take, List.length_drop]
      omega
    rw [commitPieces, if_neg hskip]
    rcases committing_commitPiece h hg hindex hdata with ⟨hfail, hcommit⟩ | ⟨hok, hcommit⟩
    · generalize commitPiece first _ w = r at hfail hcommit
      obtain ⟨ok, w₁⟩ := r
      obtain rfl : ok = false := hfail
      exact ⟨0, Nat.zero_le _, rfl, w₁, hcommit, .inr ⟨Nat.succ_pos _, rfl, rfl⟩⟩
    · generalize commitPiece first _ w = r at hok hcommit
      obtain ⟨ok, w₁⟩ := r
      obtain rfl : ok = true := hok
      obtain ⟨k, hk, hsaved, w₂, hcommit₂, hend⟩ := ih (saved + 1) hcommit hrest
        (Nat.add_assoc offset _ _ ▸ hlen : data.length =
          offset + w₀.mt.torrent.pieceSize first + sizes.sum)
      have hfirst : first + 1 + k = first + (k + 1) := by omega
      rw [hfirst] at hcommit₂ hend
      refine ⟨k + 1, by omega, by rw [hsaved]; omega, w₂, ?_, ?_⟩
      · rw [Nat.add_sub_add_right]
        exact hcommit₂
      · refine hend.imp (And.imp_left fun h => by omega) (And.imp_left fun h => by omega)

/-! ## The whole batch -/

/-- The pieces in hand are freed. -/
theorem Work.Committing.free (h : w₀.Committing held first n w) :
    w₀.Committing held first 0 { w with mt.pieceMgr := freePieces n first w.mt.pieceMgr } :=
  { h with
    torrent := h.torrent.trans rfl
    pieces := isSome_pieces_freePieces.trans h.pieces
    fits := PieceMgr.SameComplete.frees.fits h.fits
    counted := h.counted.of_sameComplete .frees
    ledger := withRange_zero.symm ▸ h.ledger.free h.fits }

/-- A batch that is in no slot any more, and whose pieces are in no hand. -/
theorem Work.Committing.ok {slot : ℕ} (h : w.Committing
      (jobHolders w.mt.generation (w.webSeedJobs.set slot none)) first 0 w₀)
    (hok : w.mt.Ok w.webSeedJobs) (hstate : w.mt.state = .downloading) :
    w₀.mt.Ok (w₀.webSeedJobs.set slot none) := by
  have hpieces := hok.pieces hstate
  have htorrent : w₀.mt.torrent = w.mt.torrent := by rw [h.torrent]
  have hgeneration : w₀.mt.generation = w.mt.generation := by rw [h.torrent]
  have hmagnet : w₀.mt.isMagnet = w.mt.isMagnet := by rw [h.torrent]
  have hledger := h.ledger
  rw [withRange_zero, ← hgeneration, ← htorrent] at hledger
  rw [h.world.sameJobs.webSeedJobs]
  refine ⟨?_, ?_, fun _ => ⟨htorrent.symm ▸ h.fits, ?_⟩, ?_, fun job hjob hgen => ?_,
    fun _ => ?_, fun _ => hledger⟩
  · rw [ManagedTorrent.Accepted, hmagnet, htorrent]
    exact hok.accepted
  · rw [h.torrent]
    exact hok.totalSize
  · exact hmagnet.trans (hok.fits hpieces).2
  · rw [h.state, htorrent]
    exact h.counted
  · rw [htorrent]
    rcases List.mem_or_eq_of_mem_set hjob with hjob | hjob
    · exact hok.batches job hjob (hgen.trans hgeneration)
    · cases hjob
  · exact h.pieces.trans hpieces

theorem Work.Committing.noteProgress (saved : ℕ) (h : w₀.Committing held first n w) :
    w₀.Committing held first n (noteProgress saved w) := by
  rw [PS5Torrent.noteProgress]
  split
  · exact { h with torrent := h.torrent.trans rfl, world := h.world.trans ⟨rfl, Nat.le_succ _⟩ }
  · exact h

theorem freePieces_noteProgress :
    { noteProgress saved { w with mt.pieceMgr := pm } with
      mt.pieceMgr := freePieces n first (noteProgress saved { w with mt.pieceMgr := pm }).mt.pieceMgr } =
      { noteProgress saved w with mt.pieceMgr := freePieces n first pm } := by
  simp only [noteProgress]
  split
  · rfl
  · rfl

theorem pieceMgr_noteProgress : (noteProgress saved w).mt.pieceMgr = w.mt.pieceMgr := by
  rw [noteProgress]
  split
  · rfl
  · rfl

/-- A batch is saved as far as it can be, and the rest of it is freed. -/
theorem committing_applyWebSeed {job : WebSeedJob} (h : w.Committing held job.firstPiece
      job.pieceSizes.length w) (hg : w.mt.torrent.Geometry) (hjob : job.Ok w.mt.torrent) :
    ∃ first, w.Committing held first 0 (applyWebSeed job w) := by
  have hindex : ¬job.firstPiece ≥ w.mt.pieceMgr.numPieces := by
    have hpos := List.length_pos_iff.2 hjob.nonempty
    rw [h.fits.numPieces]
    exact not_le.2 (hjob.isBatch.lt_numPieces le_rfl (by omega))
  rw [applyWebSeed, if_neg hindex]
  split
  case isFalse => exact ⟨_, h.free⟩
  case isTrue =>
    obtain ⟨k, hk, hsaved, w₁, hcommit, hend⟩ := committing_commitPieces 0 h hg
      hjob.isBatch (by rw [hjob.length, zero_add] : job.data.length = 0 + job.pieceSizes.sum)
    generalize commitPieces job.data job.firstPiece 0 0 job.pieceSizes w = r at hsaved hend
    obtain ⟨ok, saved, w₂⟩ := r
    dsimp only at hsaved hend ⊢
    rw [zero_add] at hsaved
    subst hsaved
    rcases hend with ⟨rfl, rfl, rfl⟩ | ⟨hlt, rfl, rfl⟩
    · rw [if_pos rfl]
      have hdone := hcommit.noteProgress job.pieceSizes.length
      rw [Nat.sub_self] at hdone
      exact ⟨_, hdone⟩
    · have hfree : freePieces (job.pieceSizes.length - saved) (job.firstPiece + saved)
            (w₁.mt.pieceMgr.setState (job.firstPiece + saved) .free) =
          freePieces (job.pieceSizes.length - saved) (job.firstPiece + saved) w₁.mt.pieceMgr := by
        obtain ⟨m, hm⟩ : ∃ m, job.pieceSizes.length - saved = m + 1 :=
          ⟨job.pieceSizes.length - saved - 1, by omega⟩
        rw [hm] at hcommit ⊢
        refine freePieces_setState ?_ hcommit.ledger.state_first
        rw [hcommit.fits.numPieces]
        exact hjob.isBatch.lt_numPieces (by omega) (by omega)
      have hdone := (hcommit.noteProgress saved).free
      rw [pieceMgr_noteProgress, ← hfree] at hdone
      rw [if_neg Bool.false_ne_true, freePieces_noteProgress]
      exact ⟨_, hdone⟩

end PS5Torrent
