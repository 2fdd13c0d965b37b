import PS5Torrent.TorrentMgr.Jobs
import PS5Torrent.WebSeed.Pieces

/-!
# Batches of pieces

A batch that is scheduled consists of consecutive free pieces, with their
sizes (`webSeedBatch_eq_some`), and the loops that set the states of its
pieces set these and no others.
-/

namespace PS5Torrent

variable {pm : PieceMgr} {mt : ManagedTorrent} {n first index i : ℕ} {sizes : List ℕ}

/-! ## Choosing pieces -/

/-- The next piece is free, and the peer has it, as far as its bitfield says. -/
theorem pieceMgrGetNext_eq_some {bitfield : Option Bytes} (hnum : pm.numPieces < 2 ^ 31)
    (h : pieceMgrGetNext pm bitfield = some index) :
    index < pm.numPieces ∧ pm.state index = some .free ∧ advertises bitfield index := by
  rw [pieceMgrGetNext] at h
  split at h
  case isTrue => cases h
  case isFalse =>
    rw [Option.bind_eq_bind, Option.bind_eq_some_iff] at h
    obtain ⟨j, hfind, h⟩ := h
    have hmem := List.mem_range.1 (List.mem_of_find?_eq_some hfind)
    have hfree := List.find?_some hfind
    rw [toInt32_of_mem (by omega) (by omega), if_neg (by omega), Int.toNat_natCast] at h
    obtain rfl := Option.some.inj h
    rw [Bool.and_eq_true, decide_eq_true_eq] at hfree
    exact ⟨hmem, hfree.1, hfree.2⟩

/-- The pieces of a batch are free. -/
theorem state_of_batchSizes {totalSize : ℕ} (hl : first ≤ i)
    (hu : i < first + (batchSizes mt n first totalSize).length) : mt.pieceMgr.state i = some .free := by
  induction n generalizing first totalSize with
  | zero => exact absurd hu (not_lt.2 hl)
  | succ n ih =>
    rw [batchSizes] at hu
    split at hu
    · exact absurd hu (not_lt.2 hl)
    split at hu
    · exact absurd hu (not_lt.2 hl)
    rename_i hstate
    dsimp only at hu
    split at hu
    · exact absurd hu (not_lt.2 hl)
    rcases hl.eq_or_lt with rfl | hlt
    · exact not_not.1 hstate
    · rw [List.length_cons, ← add_assoc, Nat.add_right_comm] at hu
      exact ih hlt hu

/-- A batch has the sizes of consecutive pieces. -/
theorem isBatch_batchSizes (hg : mt.torrent.Geometry) (totalSize : ℕ) :
    mt.torrent.IsBatch first (batchSizes mt n first totalSize) := by
  induction n generalizing first totalSize with
  | zero => trivial
  | succ n ih =>
    rw [batchSizes]
    split
    · trivial
    split
    · trivial
    rename_i hlt _
    dsimp only
    split
    · trivial
    exact ⟨not_le.1 hlt, torrentPieceSize_eq hg, ih _⟩

theorem webSeedBatch_eq_some (h : webSeedBatch mt = some (first, sizes)) :
    sizes ≠ [] ∧ pieceMgrGetNext mt.pieceMgr none = some first ∧
      sizes = batchSizes mt WEB_SEED_BATCH_PIECES first 0 := by
  rw [webSeedBatch] at h
  split at h
  · cases h
  rename_i next hnext
  dsimp only at h
  split at h
  · cases h
  rename_i hne
  obtain ⟨rfl, rfl⟩ := Prod.mk.inj (Option.some.inj h)
  exact ⟨hne, hnext, rfl⟩

/-! ## Setting states -/

@[simp]
theorem numPieces_pieceMgrRequest : (pieceMgrRequest pm first).numPieces = pm.numPieces := by
  rw [pieceMgrRequest]
  split <;> rfl

theorem state_pieceMgrRequest (h : first < pm.numPieces) : (pieceMgrRequest pm first).state i =
    if first = i then (pm.state i).map fun _ => .requested else pm.state i := by
  rw [pieceMgrRequest, if_neg (not_le.2 h), PieceMgr.state_setState]

theorem setState_pieceMgrRequest_comm {s : PieceState} (h : first ≠ i) :
    (pieceMgrRequest pm first).setState i s = pieceMgrRequest (pm.setState i s) first := by
  rw [pieceMgrRequest, pieceMgrRequest, PieceMgr.numPieces_setState]
  split
  · rfl
  · exact PieceMgr.setState_comm h

theorem setState_requestPieces_comm {s : PieceState} (h : i < first) :
    (requestPieces n first pm).setState i s = requestPieces n first (pm.setState i s) := by
  induction n generalizing first pm with
  | zero => rfl
  | succ n ih =>
    rw [requestPieces, requestPieces, ih (by omega), setState_pieceMgrRequest_comm h.ne']

/-- Setting a piece back to free undoes its request. -/
theorem setState_pieceMgrRequest (h : pm.state first = some .free) :
    (pieceMgrRequest pm first).setState first .free = pm := by
  rw [pieceMgrRequest]
  split
  · exact PieceMgr.setState_self h
  · rw [PieceMgr.setState_setState, PieceMgr.setState_self h]

/-- A batch that is given back leaves the pieces as they were. -/
theorem setStates_requestPieces (h : ∀ i, first ≤ i → i < first + n → pm.state i = some .free) :
    (requestPieces n first pm).setStates .free n first = pm := by
  induction n generalizing first pm with
  | zero => rfl
  | succ n ih =>
    rw [requestPieces, PieceMgr.setStates, setState_requestPieces_comm (by omega),
      setState_pieceMgrRequest (h first le_rfl (by omega))]
    exact ih fun i hl hu => h i (by omega) (by omega)

@[simp]
theorem numPieces_requestPieces : (requestPieces n first pm).numPieces = pm.numPieces := by
  induction n generalizing first pm with
  | zero => rfl
  | succ n ih => rw [requestPieces, ih, numPieces_pieceMgrRequest]

/-- The request of a batch requests its pieces. -/
theorem state_requestPieces (h : first + n ≤ pm.numPieces) : (requestPieces n first pm).state i =
    if first ≤ i ∧ i < first + n then (pm.state i).map fun _ => .requested else pm.state i := by
  induction n generalizing first pm with
  | zero => rw [if_neg (by omega), requestPieces]
  | succ n ih =>
    rw [requestPieces, ih (by rw [numPieces_pieceMgrRequest]; omega),
      state_pieceMgrRequest (by omega)]
    by_cases hfirst : first = i
    · rw [if_neg (by omega), if_pos hfirst, if_pos (by omega)]
    · rw [if_neg hfirst]
      refine if_congr ?_ rfl rfl
      omega

/-- The release of pieces frees those that are not complete. -/
theorem state_freePieces (hshape : ∀ i, (pm.state i).isSome ↔ i < pm.numPieces) :
    (freePieces n first pm).state i =
      if (first ≤ i ∧ i < first + n) ∧ pm.state i ≠ some .complete then
        (pm.state i).map fun _ => .free
      else pm.state i := by
  induction n generalizing first pm with
  | zero => rw [if_neg (by omega), freePieces]
  | succ n ih =>
    have hrange (hne : first ≠ i) :
        (first + 1 ≤ i ∧ i < first + 1 + n) ↔ (first ≤ i ∧ i < first + (n + 1)) := by omega
    rw [freePieces]
    by_cases hfree : first < pm.numPieces ∧ pm.state first ≠ some .complete
    case pos =>
      have hshape' : ∀ i, ((pm.setState first .free).state i).isSome ↔
          i < (pm.setState first .free).numPieces := fun j => by
        rw [PieceMgr.state_setState]
        split <;> simp [hshape]
      rw [if_pos hfree, ih hshape', PieceMgr.state_setState]
      by_cases hfirst : first = i
      · subst hfirst
        rw [if_pos rfl, if_neg (by omega), if_pos ⟨by omega, hfree.2⟩]
      · rw [if_neg hfirst]
        exact if_congr (and_congr_left' (hrange hfirst)) rfl rfl
    case neg =>
      rw [if_neg hfree, ih hshape]
      by_cases hfirst : first = i
      · subst hfirst
        rw [if_neg (by omega)]
        by_cases hcomplete : pm.state first = some .complete
        · rw [if_neg fun h => h.2 hcomplete]
        · have hnone : pm.state first = none := by
            rw [← Option.not_isSome_iff_eq_none, hshape]
            exact fun h => hfree ⟨h, hcomplete⟩
          rw [if_pos ⟨by omega, hcomplete⟩, hnone, Option.map_none]
      · exact if_congr (and_congr_left' (hrange hfirst)) rfl rfl

end PS5Torrent
