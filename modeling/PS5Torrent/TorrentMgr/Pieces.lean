import PS5Torrent.TorrentMgr.Frame
import Mathlib.Algebra.Order.BigOperators.Group.Finset

/-!
# The count of the pieces

The number of complete pieces, the bitfield and the bytes downloaded all count
the same pieces, and each of these was verified and written (`Counted`). A
change of states that leaves the complete pieces complete and makes no others
complete keeps this; so does the completion of one more piece that was
verified and written (`Counted.complete`).
-/

namespace PS5Torrent

open Sha1

/-- A piece that has a state is in the table. -/
theorem PieceMgr.isSome_pieces {pm : PieceMgr} {i : ℕ} {s : PieceState}
    (h : pm.state i = some s) : pm.pieces.isSome := by
  obtain ⟨piece, hpiece, -⟩ := Option.map_eq_some_iff.1 h
  obtain ⟨pieces, hpieces, -⟩ := Option.bind_eq_some_iff.1 hpiece
  rw [hpieces]
  rfl

/-- The tables of a piece manager fit the metainfo. -/
structure PieceMgr.Fits (pm : PieceMgr) (t : Torrent) : Prop where
  numPieces : pm.numPieces = t.numPieces
  state : ∀ i, (pm.state i).isSome ↔ i < t.numPieces
  hash : ∀ i < t.numPieces, pm.hash i = some (t.pieceHash i)
  bitfield : ∃ bits, pm.bitfield = some bits ∧ bits.length = (t.numPieces + 7) / 8

/-- The complete pieces. -/
def PieceMgr.completePieces (pm : PieceMgr) (t : Torrent) : Finset ℕ :=
  (Finset.range t.numPieces).filter fun i => pm.state i = some .complete

/-- The same pieces are complete. -/
structure PieceMgr.SameComplete (pm pm' : PieceMgr) : Prop where
  numPieces : pm'.numPieces = pm.numPieces
  numComplete : pm'.numComplete = pm.numComplete
  bitfield : pm'.bitfield = pm.bitfield
  hash : ∀ i, pm'.hash i = pm.hash i
  isSome : ∀ i, (pm'.state i).isSome = (pm.state i).isSome
  complete : ∀ i, pm'.state i = some .complete ↔ pm.state i = some .complete

namespace PieceMgr.SameComplete

variable {pm pm' pm'' : PieceMgr} {t : Torrent} {index n first : ℕ} {s : PieceState}

theorem refl (pm : PieceMgr) : pm.SameComplete pm :=
  ⟨rfl, rfl, rfl, fun _ => rfl, fun _ => rfl, fun _ => Iff.rfl⟩

theorem trans (h : pm.SameComplete pm') (h' : pm'.SameComplete pm'') : pm.SameComplete pm'' where
  numPieces := h'.numPieces.trans h.numPieces
  numComplete := h'.numComplete.trans h.numComplete
  bitfield := h'.bitfield.trans h.bitfield
  hash i := (h'.hash i).trans (h.hash i)
  isSome i := (h'.isSome i).trans (h.isSome i)
  complete i := (h'.complete i).trans (h.complete i)

/-- A piece that is not complete may change its state, if it does not become so. -/
theorem setState (hstate : pm.state index ≠ some .complete) (hs : s ≠ .complete) :
    pm.SameComplete (pm.setState index s) where
  numPieces := rfl
  numComplete := rfl
  bitfield := rfl
  hash _ := PieceMgr.hash_setState
  isSome i := by
    rw [PieceMgr.state_setState]
    split
    · exact Option.isSome_map
    · rfl
  complete i := by
    rw [PieceMgr.state_setState]
    split
    case isTrue hi =>
      rw [← hi]
      refine iff_of_false (fun h => ?_) hstate
      obtain ⟨_, -, hcomplete⟩ := Option.map_eq_some_iff.1 h
      exact hs hcomplete
    case isFalse => exact Iff.rfl

theorem leaves {p : TorrentPeer} : pm.SameComplete (p.leaves pm) := by
  rw [TorrentPeer.leaves, TorrentPeer.freed]
  split
  · exact refl pm
  split
  case isTrue hfree =>
    simp only [Bool.and_eq_true, decide_eq_true_eq] at hfree
    exact setState hfree.2 PieceState.noConfusion
  case isFalse => exact refl pm

theorem request (hstate : pm.state index ≠ some .complete) :
    pm.SameComplete (pieceMgrRequest pm index) := by
  rw [pieceMgrRequest]
  split
  · exact refl pm
  · exact setState hstate PieceState.noConfusion

theorem requests (h : ∀ i, first ≤ i → i < first + n → pm.state i ≠ some .complete) :
    pm.SameComplete (requestPieces n first pm) := by
  induction n generalizing first pm with
  | zero => exact refl pm
  | succ n ih =>
    have hfirst := request (h first le_rfl (by omega))
    exact hfirst.trans (ih fun i hl hu => mt (hfirst.complete i).1 (h i (by omega) (by omega)))

theorem frees : pm.SameComplete (freePieces n first pm) := by
  induction n generalizing first pm with
  | zero => exact refl pm
  | succ n ih =>
    rw [freePieces]
    split
    case isTrue hfree => exact (setState hfree.2 PieceState.noConfusion).trans ih
    case isFalse => exact ih

theorem completePieces_eq (h : pm.SameComplete pm') : pm'.completePieces t = pm.completePieces t :=
  Finset.filter_congr fun i _ => h.complete i

theorem fits (h : pm.SameComplete pm') (hfits : pm.Fits t) : pm'.Fits t where
  numPieces := h.numPieces.trans hfits.numPieces
  state i := by rw [h.isSome, hfits.state]
  hash i hi := (h.hash i).trans (hfits.hash i hi)
  bitfield := h.bitfield ▸ hfits.bitfield

end PieceMgr.SameComplete

/-- The pieces of a torrent are counted right: `state`, `downloaded` and so on
    are those of its record. -/
structure Counted (t : Torrent) (pm : PieceMgr) (state : TorrentState)
    (downloaded lastDownloaded : ℕ) (writes : List PieceWrite) : Prop where
  numComplete : pm.numComplete = (pm.completePieces t).card
  bitfield : ∀ i, hasBit (pm.bitfield.getD []) i ↔ pm.state i = some .complete
  downloaded_eq : downloaded = ∑ i ∈ pm.completePieces t, torrentPieceSize t i
  lastDownloaded_le : state = .downloading → lastDownloaded ≤ downloaded
  verified : ∀ write ∈ writes, sha1Hash write.data = t.pieceHash write.index
  written : ∀ i, pm.state i = some .complete → ∃ write ∈ writes,
    write.index = i ∧ write.ok ∧ write.data.length = torrentPieceSize t i
  done : state = .done → pm.completePieces t = Finset.range t.numPieces

namespace Counted

variable {t : Torrent} {pm pm' : PieceMgr} {state : TorrentState}
  {downloaded lastDownloaded index : ℕ} {writes : List PieceWrite} {data : Bytes}

/-- No pieces are complete. -/
theorem empty (hstate : ∀ i, pm.state i ≠ some .complete) (hnum : pm.numComplete = 0)
    (hbits : ∀ i, hasBit (pm.bitfield.getD []) i = false) (hdownloading : state ≠ .downloading)
    (hdone : state ≠ .done) : Counted t pm state 0 lastDownloaded [] := by
  have hempty : pm.completePieces t = ∅ := Finset.filter_eq_empty_iff.2 fun i _ => hstate i
  refine ⟨?_, fun i => ?_, ?_, fun h => absurd h hdownloading, fun write hwrite => ?_,
    fun i hi => absurd hi (hstate i), fun h => absurd h hdone⟩
  · rw [hnum, hempty, Finset.card_empty]
  · rw [hbits]
    exact iff_of_false Bool.false_ne_true (hstate i)
  · rw [hempty, Finset.sum_empty]
  · cases hwrite

/-- A download begins. -/
theorem begin (h : Counted t pm state downloaded lastDownloaded writes) :
    Counted t pm .downloading downloaded downloaded writes :=
  { h with
    lastDownloaded_le := fun _ => le_rfl
    done := TorrentState.noConfusion }

/-- The speed is taken. -/
theorem speed (h : Counted t pm state downloaded lastDownloaded writes) :
    Counted t pm state downloaded downloaded writes :=
  { h with lastDownloaded_le := fun _ => le_rfl }

/-- The states of other pieces do not count. -/
theorem of_sameComplete (h : Counted t pm state downloaded lastDownloaded writes)
    (hpm : pm.SameComplete pm') : Counted t pm' state downloaded lastDownloaded writes where
  numComplete := by rw [hpm.numComplete, hpm.completePieces_eq, h.numComplete]
  bitfield i := by rw [hpm.bitfield, hpm.complete, h.bitfield]
  downloaded_eq := by rw [hpm.completePieces_eq, ← h.downloaded_eq]
  lastDownloaded_le := h.lastDownloaded_le
  verified := h.verified
  written i hi := h.written i ((hpm.complete i).1 hi)
  done hd := hpm.completePieces_eq.trans (h.done hd)

/-- A torrent that is stopped or fails keeps its count. -/
theorem of_state {state' : TorrentState} (h : Counted t pm state downloaded lastDownloaded writes)
    (hdownloading : state' ≠ .downloading) (hdone : state' ≠ .done) :
    Counted t pm state' downloaded lastDownloaded writes :=
  { h with
    lastDownloaded_le := fun hs => absurd hs hdownloading
    done := fun hs => absurd hs hdone }

/-- A verified piece is handed to the file writer. -/
theorem write (h : Counted t pm state downloaded lastDownloaded writes)
    (hhash : sha1Hash data = t.pieceHash index) (ok : Bool) :
    Counted t pm state downloaded lastDownloaded (⟨index, data, ok⟩ :: writes) :=
  { h with
    verified := fun write hwrite => by
      rcases List.mem_cons.1 hwrite with rfl | hwrite
      exacts [hhash, h.verified write hwrite]
    written := fun i hi => by
      obtain ⟨write, hmem, hwrite⟩ := h.written i hi
      exact ⟨write, List.mem_cons_of_mem _ hmem, hwrite⟩ }

/-- What is downloaded is part of the payload. -/
theorem downloaded_le (h : Counted t pm state downloaded lastDownloaded writes)
    (hg : t.Geometry) : downloaded ≤ t.totalSize.toNat := by
  rw [h.downloaded_eq, ← hg.sum_pieceSize]
  simp only [torrentPieceSize_eq hg]
  exact Finset.sum_le_sum_of_subset (Finset.filter_subset _ _)

/-- A torrent whose manager says so has all its pieces. -/
theorem of_isDone (h : Counted t pm state downloaded lastDownloaded writes) (hfits : pm.Fits t)
    (hdone : pieceMgrIsDone pm) : Counted t pm .done downloaded lastDownloaded writes := by
  refine { h with lastDownloaded_le := TorrentState.noConfusion, done := fun _ => ?_ }
  refine Finset.eq_of_subset_of_card_le (Finset.filter_subset _ _) ?_
  rw [pieceMgrIsDone, decide_eq_true_eq, h.numComplete, hfits.numPieces] at hdone
  rwa [Finset.card_range]

end Counted

/-! ## Setting up the pieces -/

section Init

variable {piecesOk bitfieldOk : Bool} {t : Torrent} {i : ℕ}

/-- A new piece manager has the pieces of the metainfo, all free. -/
theorem state_pieceMgrInit (piecesOk bitfieldOk : Bool) (t : Torrent) (i : ℕ) :
    (pieceMgrInit piecesOk bitfieldOk t).state i =
    if (pieceMgrInit piecesOk bitfieldOk t).pieces.isSome ∧ i < t.numPieces then some .free
    else none := by
  rw [PieceMgr.state, pieceMgrInit]
  dsimp only
  cases piecesOk && bitfieldOk with
  | false => rfl
  | true =>
    by_cases hi : i < t.numPieces
    · simp [hi]
    · simp [hi]

theorem fits_pieceMgrInit (h : (pieceMgrInit piecesOk bitfieldOk t).pieces.isSome) :
    (pieceMgrInit piecesOk bitfieldOk t).Fits t := by
  have hstate := state_pieceMgrInit piecesOk bitfieldOk t
  refine ⟨rfl, fun i => ?_, fun i hi => ?_, ?_⟩
  · rw [hstate]
    split
    case isTrue hi => exact iff_of_true rfl hi.2
    case isFalse hi => exact iff_of_false Bool.false_ne_true fun hlt => hi ⟨h, hlt⟩
  · rw [PieceMgr.hash]
    rw [pieceMgrInit] at h ⊢
    dsimp only at h ⊢
    cases hok : piecesOk && bitfieldOk with
    | false => simp [hok] at h
    | true => simp [hi]
  · rw [pieceMgrInit] at h ⊢
    dsimp only at h ⊢
    cases hok : piecesOk && bitfieldOk with
    | false => simp [hok] at h
    | true => exact ⟨_, rfl, List.length_replicate⟩

theorem Counted.init {state : TorrentState} {lastDownloaded : ℕ} (hdownloading : state ≠ .downloading)
    (hdone : state ≠ .done) :
    Counted t (pieceMgrInit piecesOk bitfieldOk t) state 0 lastDownloaded [] := by
  refine .empty (fun i => ?_) rfl (fun i => ?_) hdownloading hdone
  · rw [state_pieceMgrInit]
    split
    · exact fun h => nomatch h
    · exact fun h => nomatch h
  · rw [pieceMgrInit]
    dsimp only
    split
    · exact hasBit_replicate _ _
    · exact hasBit_replicate 0 i

end Init

/-! ## Completing a piece -/

section Complete

variable {t : Torrent} {pm : PieceMgr} {index i : ℕ} {data : Bytes}

/-- The manager accepts a piece that has the hash of the metainfo. -/
theorem pieceMgrComplete_eq (hfits : pm.Fits t) (hindex : index < t.numPieces)
    (hhash : sha1Hash data = t.pieceHash index) :
    pieceMgrComplete pm index data = (true, { pm.setState index .complete with
      numComplete := pm.numComplete + 1
      bitfield := pm.bitfield.map (setBit · index) }) := by
  have hpiece := hfits.hash index hindex
  rw [pieceMgrComplete, if_neg (by rw [hfits.numPieces]; omega), if_neg (by rw [hpiece, hhash]; simp)]

theorem state_pieceMgrComplete (hfits : pm.Fits t) (hindex : index < t.numPieces)
    (hhash : sha1Hash data = t.pieceHash index) :
    (pieceMgrComplete pm index data).2.state i =
      if index = i then some .complete else pm.state i := by
  have hstate : (pieceMgrComplete pm index data).2.state i =
      (pm.setState index .complete).state i := by
    rw [pieceMgrComplete_eq hfits hindex hhash]
    rfl
  rw [hstate]
  split
  case isTrue heq => rw [← heq, PieceMgr.state_setState_self ((hfits.state index).2 hindex)]
  case isFalse hne => exact PieceMgr.state_setState_of_ne hne

theorem PieceMgr.Fits.complete (hfits : pm.Fits t) (hindex : index < t.numPieces)
    (hhash : sha1Hash data = t.pieceHash index) : (pieceMgrComplete pm index data).2.Fits t := by
  have hstate (i : ℕ) := state_pieceMgrComplete (i := i) hfits hindex hhash
  have heq := pieceMgrComplete_eq hfits hindex hhash
  obtain ⟨bits, hbits, hlen⟩ := hfits.bitfield
  refine ⟨?_, fun i => ?_, fun i hi => ?_, setBit bits index, ?_, ?_⟩
  · rw [heq]
    exact hfits.numPieces
  · rw [hstate]
    split
    case isTrue h => exact iff_of_true rfl (h ▸ hindex)
    case isFalse => exact hfits.state i
  · rw [heq]
    exact PieceMgr.hash_setState.trans (hfits.hash i hi)
  · rw [heq, hbits]
    rfl
  · rw [length_setBit, hlen]

/-- One more piece is complete. -/
theorem completePieces_pieceMgrComplete (hfits : pm.Fits t) (hindex : index < t.numPieces)
    (hhash : sha1Hash data = t.pieceHash index) :
    (pieceMgrComplete pm index data).2.completePieces t = insert index (pm.completePieces t) := by
  ext i
  rw [PieceMgr.completePieces, PieceMgr.completePieces, Finset.mem_insert, Finset.mem_filter,
    Finset.mem_filter, state_pieceMgrComplete hfits hindex hhash, Finset.mem_range]
  by_cases hi : index = i
  · subst hi
    simp [hindex]
  · rw [if_neg hi, eq_comm (a := i), or_iff_right hi]

/-- A piece that was verified and written in full is counted. -/
theorem Counted.complete {state : TorrentState} {downloaded lastDownloaded : ℕ}
    {writes : List PieceWrite} (h : Counted t pm state downloaded lastDownloaded writes)
    (hg : t.Geometry) (hfits : pm.Fits t) (hindex : index < t.numPieces)
    (hstate : pm.state index ≠ some .complete) (hdone : state ≠ .done)
    (hhash : sha1Hash data = t.pieceHash index) (hlen : data.length = t.pieceSize index) :
    Counted t (pieceMgrComplete pm index data).2 state
      (toSize (downloaded + t.pieceSize index)) lastDownloaded (⟨index, data, true⟩ :: writes) := by
  have hcomplete := completePieces_pieceMgrComplete hfits hindex hhash
  have hnew : index ∉ pm.completePieces t := fun hmem => hstate (Finset.mem_filter.1 hmem).2
  have heq := pieceMgrComplete_eq hfits hindex hhash
  have hsum : ∑ i ∈ insert index (pm.completePieces t), torrentPieceSize t i =
      downloaded + t.pieceSize index := by
    rw [Finset.sum_insert hnew, ← h.downloaded_eq, torrentPieceSize_eq hg, add_comm]
  have hsize : toSize (downloaded + t.pieceSize index) = downloaded + t.pieceSize index := by
    have hle : ∑ i ∈ insert index (pm.completePieces t), torrentPieceSize t i ≤
        t.totalSize.toNat := by
      rw [← hcomplete, ← hg.sum_pieceSize]
      simp only [torrentPieceSize_eq hg]
      exact Finset.sum_le_sum_of_subset (Finset.filter_subset _ _)
    have htotal := hg.totalSize_le
    rw [INT64_MAX] at htotal
    exact toSize_of_lt (by omega)
  refine ⟨?_, fun i => ?_, ?_, fun hs => ?_, (h.write hhash true).verified, fun i hi => ?_,
    fun hs => absurd hs hdone⟩
  · rw [hcomplete, Finset.card_insert_of_notMem hnew, ← h.numComplete, heq]
  · obtain ⟨bits, hbits, hlenbits⟩ := hfits.bitfield
    have hbit := h.bitfield i
    rw [hbits, Option.getD_some] at hbit
    rw [state_pieceMgrComplete hfits hindex hhash, heq]
    dsimp only
    rw [hbits, Option.map_some, Option.getD_some, hasBit_setBit (by omega), Bool.or_eq_true,
      decide_eq_true_eq, hbit]
    by_cases hi : index = i
    · simp [hi]
    · rw [if_neg hi, or_iff_right hi]
  · rw [hcomplete, hsum, hsize]
  · rw [hsize]
    exact (h.lastDownloaded_le hs).trans (Nat.le_add_right _ _)
  · rw [state_pieceMgrComplete hfits hindex hhash] at hi
    by_cases hne : index = i
    · subst hne
      exact ⟨_, List.mem_cons_self, rfl, rfl, by rw [hlen, torrentPieceSize_eq hg]⟩
    · rw [if_neg hne] at hi
      exact (h.write hhash true).written i hi

end Complete

end PS5Torrent
