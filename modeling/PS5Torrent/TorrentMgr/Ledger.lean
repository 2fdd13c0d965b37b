import PS5Torrent.TorrentMgr.Pieces

/-!
# Who downloads a piece

A piece that is requested has exactly one holder, a connected peer or a batch,
and any other piece has none (`Ledger`). What a peer or a batch does to the
states of pieces is what it does to its holdings.
-/

namespace PS5Torrent

open Sha1 Slots

/-- A connected peer assembles the piece. -/
def TorrentPeer.holds (p : TorrentPeer) (index : ℕ) : Bool :=
  p.sock.isSome && p.pieceData.isSome && p.lastRequest = index

/-- The piece is in the range of the batch. -/
def WebSeedJob.covers (job : WebSeedJob) (index : ℕ) : Bool :=
  job.firstPiece ≤ index && index < job.firstPiece + job.pieceSizes.length

/-- The number of peers that assemble a piece. -/
def peerHolders (peers : List TorrentPeer) (index : ℕ) : ℕ := peers.countP (·.holds index)

/-- The number of batches of a generation with a piece in their range. -/
def jobHolders (generation : ℕ) (jobs : List (Option WebSeedJob)) (index : ℕ) : ℕ :=
  jobs.countP (·.any fun job => job.generation = generation && job.covers index)

/-- The state of a transfer fits the piece. -/
structure TorrentPeer.Ok (p : TorrentPeer) (t : Torrent) : Prop where
  connected : p.pieceData.isSome → p.sock.isSome
  length : ∀ buffer, p.pieceData = some buffer → buffer.length = p.pieceSize
  size : p.pieceData.isSome → p.pieceSize = t.pieceSize p.lastRequest
  received : p.pieceData.isSome → p.pieceReceived ≤ p.pieceSize

/-- The holders of the pieces, where `held` counts those that are not peers. -/
structure Ledger (t : Torrent) (pm : PieceMgr) (peers : List TorrentPeer) (held : ℕ → ℕ) : Prop where
  failed : ∀ i, pm.state i ≠ some .failed
  holders : ∀ i, peerHolders peers i + held i = if pm.state i = some .requested then 1 else 0
  peers : ∀ p ∈ peers, p.Ok t

variable {t : Torrent} {pm pm' : PieceMgr} {peers : List TorrentPeer} {held held' : ℕ → ℕ}
  {p p' : TorrentPeer} {i index : ℕ}

/-! ## Holders -/

theorem TorrentPeer.holds_iff :
    p.holds index ↔ p.sock.isSome ∧ p.pieceData.isSome ∧ p.lastRequest = index := by
  rw [holds, Bool.and_eq_true, Bool.and_eq_true, decide_eq_true_eq, and_assoc]

theorem TorrentPeer.holds_of_none (h : p.pieceData = none) : p.holds index = false := by
  rw [holds, h, Option.isSome_none, Bool.and_false, Bool.false_and]

/-- A batch in a free slot is counted. -/
theorem jobHolders_set (index : ℕ) {generation slot : ℕ} {jobs : List (Option WebSeedJob)}
    (job : WebSeedJob)
    (hslot : jobs[slot]? = some none) (hjob : job.generation = generation) :
    jobHolders generation (jobs.set slot (some job)) index =
      jobHolders generation jobs index + if job.covers index then 1 else 0 := by
  have hcount := countP_set_add (p := fun slot : Option WebSeedJob => slot.any fun job =>
    job.generation = generation && job.covers index) (y := some job) hslot
  rw [jobHolders, jobHolders]
  simpa [hjob] using hcount

/-- A batch that is taken out of its slot no longer counts. -/
theorem jobHolders_erase {slot : ℕ} {jobs : List (Option WebSeedJob)} {job : WebSeedJob}
    (hslot : jobs[slot]? = some (some job)) : jobHolders job.generation jobs index =
      jobHolders job.generation (jobs.set slot none) index +
        if job.covers index then 1 else 0 := by
  have hcount := countP_set_add (p := fun slot : Option WebSeedJob => slot.any fun job' =>
    job'.generation = job.generation && job'.covers index) (y := none) hslot
  rw [jobHolders, jobHolders]
  simpa using hcount.symm

/-- Batches of another generation do not count. -/
theorem jobHolders_others {generation other : ℕ} {jobs : List (Option WebSeedJob)}
    (hne : generation ≠ other) :
    jobHolders generation (others WebSeedJob.generation other jobs) =
      jobHolders generation jobs := by
  funext index
  refine countP_others fun job hjob => ?_
  rw [Bool.and_eq_true, decide_eq_true_eq] at hjob
  rw [hjob.1]
  exact hne

/-- A generation without batches has no holders. -/
theorem jobHolders_eq_zero {generation : ℕ} {jobs : List (Option WebSeedJob)}
    (h : ∀ job, some job ∈ jobs → job.generation ≠ generation) :
    jobHolders generation jobs index = 0 := by
  refine List.countP_eq_zero.2 fun slot hslot hany => ?_
  obtain ⟨job, rfl, hjob⟩ := (Option.any_eq_true _ _).1 hany
  rw [Bool.and_eq_true, decide_eq_true_eq] at hjob
  exact h job hslot hjob.1

theorem WebSeedJob.covers_iff {job : WebSeedJob} : job.covers index ↔
    job.firstPiece ≤ index ∧ index < job.firstPiece + job.pieceSizes.length := by
  rw [covers, Bool.and_eq_true, decide_eq_true_eq, decide_eq_true_eq]

/-- A peer without a piece is all right. -/
theorem TorrentPeer.ok_of_none (h : p.pieceData = none) : p.Ok t := by
  have hsome : ¬p.pieceData.isSome := by
    rw [h]
    exact Bool.false_ne_true
  refine ⟨fun h => absurd h hsome, fun buffer hbuffer => ?_, fun h => absurd h hsome,
    fun h => absurd h hsome⟩
  rw [h] at hbuffer
  cases hbuffer

theorem addPeer_eq {mt mt' : ManagedTorrent} (h : addPeer p mt = some mt') :
    ∃ peers active, mt' = { mt with peers := peers, activePeers := active } := by
  rw [addPeer] at h
  split at h
  · exact ⟨_, _, (Option.some.inj h).symm⟩
  · split at h
    · exact ⟨_, _, (Option.some.inj h).symm⟩
    · cases h

namespace Ledger

/-- Nobody holds a piece. -/
theorem empty (hfailed : ∀ i, pm.state i ≠ some .failed)
    (hrequested : ∀ i, pm.state i ≠ some .requested) (hheld : ∀ i, held i = 0) :
    Ledger t pm [] held where
  failed := hfailed
  holders i := by
    rw [if_neg (hrequested i), hheld]
    rfl
  peers p hp := by cases hp

/-- A piece that a peer holds is requested. -/
theorem state_of_holds (h : Ledger t pm peers held) (hp : p ∈ peers) (hholds : p.holds index) :
    pm.state index = some .requested := by
  have hcount : 0 < peerHolders peers index := List.countP_pos_iff.2 ⟨p, hp, hholds⟩
  have hsum := h.holders index
  by_contra hstate
  rw [if_neg hstate] at hsum
  omega

/-- A piece that a batch holds is requested. -/
theorem state_of_held (h : Ledger t pm peers held) (hheld : 0 < held index) :
    pm.state index = some .requested := by
  have hsum := h.holders index
  by_contra hstate
  rw [if_neg hstate] at hsum
  omega

/-- A peer and the pieces change, such that it holds a piece anew if the piece
    is requested anew, and so on. -/
theorem update (h : Ledger t pm peers held) (hp : peers[i]? = some p)
    (hfailed : ∀ j, pm'.state j ≠ some .failed) (hok : p'.Ok t)
    (hholds : ∀ j, (if p'.holds j then 1 else 0) + (if pm.state j = some .requested then 1 else 0) =
      (if p.holds j then 1 else 0) + if pm'.state j = some .requested then 1 else 0) :
    Ledger t pm' (peers.set i p') held where
  failed := hfailed
  holders j := by
    have hset : peerHolders (peers.set i p') j + (if p.holds j then 1 else 0) =
        peerHolders peers j + if p'.holds j then 1 else 0 := countP_set_add hp
    have hsum := h.holders j
    have hj := hholds j
    omega
  peers q hq := by
    rcases List.mem_or_eq_of_mem_set hq with hq | rfl
    exacts [h.peers q hq, hok]

/-- A peer that holds what it held. -/
theorem setPeer (h : Ledger t pm peers held) (hp : peers[i]? = some p) (hok : p'.Ok t)
    (hholds : ∀ j, p'.holds j = p.holds j) : Ledger t pm (peers.set i p') held :=
  h.update hp h.failed hok fun j => by rw [hholds]

/-- A new peer. -/
theorem addPeer {mt mt' : ManagedTorrent} (h : Ledger t pm mt.peers held)
    (hdata : p.pieceData = none) (hadd : addPeer p mt = some mt') : Ledger t pm mt'.peers held := by
  rw [PS5Torrent.addPeer] at hadd
  split at hadd
  case h_1 slot hslot =>
    obtain rfl := Option.some.inj hadd
    obtain ⟨hlt, hnone, -⟩ := List.findIdx?_eq_some_iff_getElem.1 hslot
    refine h.setPeer (List.getElem?_eq_getElem hlt) (TorrentPeer.ok_of_none hdata) fun j => ?_
    rw [TorrentPeer.holds_of_none hdata, TorrentPeer.holds, Option.isNone_iff_eq_none.1 hnone]
    rfl
  case h_2 =>
    split at hadd
    case isFalse => cases hadd
    case isTrue =>
      obtain rfl := Option.some.inj hadd
      refine ⟨h.failed, fun j => ?_, fun q hq => ?_⟩
      · have hnew : peerHolders (mt.peers ++ [p]) j = peerHolders mt.peers j := by
          rw [peerHolders, List.countP_append, List.countP_singleton,
            TorrentPeer.holds_of_none hdata]
          rfl
        exact hnew ▸ h.holders j
      · rcases List.mem_append.1 hq with hq | hq
        · exact h.peers q hq
        · rw [List.mem_singleton.1 hq]
          exact TorrentPeer.ok_of_none hdata

/-! ## Release and completion -/

/-- What a peer leaves is free again. -/
theorem leaves (h : Ledger t pm peers held) (hfits : pm.Fits t) (hp : peers[i]? = some p)
    (hdata : p'.pieceData = none) : Ledger t (p.leaves pm) (peers.set i p') held := by
  have hmem := List.mem_of_getElem? hp
  rw [TorrentPeer.leaves]
  cases hpiece : p.pieceData with
  | none =>
    refine h.setPeer hp (TorrentPeer.ok_of_none hdata) fun j => ?_
    rw [TorrentPeer.holds_of_none hdata, TorrentPeer.holds_of_none hpiece]
  | some buffer =>
    have hsome : p.pieceData.isSome := by
      rw [hpiece]
      rfl
    have hholds (j : ℕ) : p.holds j ↔ p.lastRequest = j := by
      rw [TorrentPeer.holds_iff, and_iff_right ((h.peers p hmem).connected hsome),
        and_iff_right hsome]
    have hstate := h.state_of_holds hmem ((hholds _).2 rfl)
    have hisSome : (pm.state p.lastRequest).isSome := by
      rw [hstate]
      rfl
    have hfreed : p.freed pm = pm.setState p.lastRequest .free := by
      rw [TorrentPeer.freed, if_pos]
      rw [hstate, Bool.and_eq_true, Bool.and_eq_true, decide_eq_true_eq, hfits.numPieces]
      exact ⟨⟨PieceMgr.isSome_pieces hstate, (hfits.state _).1 hisSome⟩, by decide⟩
    rw [hfreed, Option.isNone_some, if_neg Bool.false_ne_true]
    refine h.update hp (fun j => ?_) (TorrentPeer.ok_of_none hdata) fun j => ?_
    · by_cases hj : p.lastRequest = j
      · rw [← hj, PieceMgr.state_setState_self hisSome]
        simp
      · rw [PieceMgr.state_setState_of_ne hj]
        exact h.failed j
    · rw [TorrentPeer.holds_of_none hdata]
      by_cases hj : p.lastRequest = j
      · rw [if_pos ((hholds j).2 hj), ← hj, PieceMgr.state_setState_self hisSome, hstate]
        rfl
      · rw [if_neg (mt (hholds j).1 hj), PieceMgr.state_setState_of_ne hj]
        rfl

/-- The piece of a peer is complete. -/
theorem complete {data : Bytes} (h : Ledger t pm peers held) (hfits : pm.Fits t)
    (hp : peers[i]? = some p) (hpiece : p.pieceData.isSome)
    (hhash : sha1Hash data = t.pieceHash p.lastRequest) (hdata : p'.pieceData = none) :
    Ledger t (p.leaves (pieceMgrComplete pm p.lastRequest data).2) (peers.set i p') held := by
  have hmem := List.mem_of_getElem? hp
  have hholds (j : ℕ) : p.holds j ↔ p.lastRequest = j := by
    rw [TorrentPeer.holds_iff, and_iff_right ((h.peers p hmem).connected hpiece),
      and_iff_right hpiece]
  have hstate := h.state_of_holds hmem ((hholds _).2 rfl)
  have hindex : p.lastRequest < t.numPieces := by
    rw [← hfits.state, hstate]
    rfl
  have hcomplete (j : ℕ) := state_pieceMgrComplete (i := j) hfits hindex hhash
  have hleaves : p.leaves (pieceMgrComplete pm p.lastRequest data).2 =
      (pieceMgrComplete pm p.lastRequest data).2 := by
    rw [TorrentPeer.leaves, TorrentPeer.freed, hcomplete, if_pos rfl]
    simp
  rw [hleaves]
  refine h.update hp (fun j => ?_) (TorrentPeer.ok_of_none hdata) fun j => ?_
  · rw [hcomplete]
    split
    · simp
    · exact h.failed j
  · rw [TorrentPeer.holds_of_none hdata, hcomplete]
    by_cases hj : p.lastRequest = j
    · rw [if_pos ((hholds j).2 hj), if_pos hj, ← hj, hstate]
      rfl
    · rw [if_neg (mt (hholds j).1 hj), if_neg hj]
      rfl

/-! ## Claims -/

/-- A peer begins a free piece. -/
theorem claim {s : Option PieceState} (h : Ledger t pm peers held) (hg : t.Geometry) (hfits : pm.Fits t)
    (hp : peers[i]? = some p) (hsock : p.sock.isSome) (hdata : p.pieceData = none)
    (hindex : index < pm.numPieces) (hstate : pm.state index = some .free) :
    Ledger t (pieceMgrRequest pm index) (peers.set i (p.claimed s index (nextPieceSize t index)))
      held := by
  have hrequest (j : ℕ) := state_pieceMgrRequest (i := j) hindex
  have hsize := nextPieceSize_eq hg (hfits.numPieces ▸ hindex)
  have hholds (j : ℕ) : (p.claimed s index (nextPieceSize t index)).holds j ↔ index = j := by
    rw [TorrentPeer.holds_iff]
    exact ⟨fun h => h.2.2, fun h => ⟨hsock, rfl, h⟩⟩
  refine h.update hp (fun j => ?_) ⟨fun _ => hsock, fun buffer hbuffer => ?_, fun _ => hsize,
    fun _ => Nat.zero_le _⟩ fun j => ?_
  · rw [hrequest]
    split
    · intro hfailed
      obtain ⟨_, -, hne⟩ := Option.map_eq_some_iff.1 hfailed
      cases hne
    · exact h.failed j
  · obtain rfl := Option.some.inj hbuffer
    exact List.length_replicate
  · rw [TorrentPeer.holds_of_none hdata, hrequest]
    by_cases hj : index = j
    · rw [if_pos ((hholds j).2 hj), if_pos hj, ← hj, hstate]
      rfl
    · rw [if_neg (mt (hholds j).1 hj), if_neg hj]
      rfl

/-- A batch of free pieces is requested for a holder that has none of them. -/
theorem request {n first : ℕ} (h : Ledger t pm peers held) (hend : first + n ≤ pm.numPieces)
    (hfree : ∀ j, first ≤ j → j < first + n → pm.state j = some .free)
    (hheld : ∀ j, held' j = held j + if first ≤ j ∧ j < first + n then 1 else 0) :
    Ledger t (requestPieces n first pm) peers held' where
  failed j := by
    rw [state_requestPieces hend]
    split
    · intro hfailed
      obtain ⟨_, -, hne⟩ := Option.map_eq_some_iff.1 hfailed
      cases hne
    · exact h.failed j
  holders j := by
    have hsum := h.holders j
    rw [state_requestPieces hend, hheld]
    by_cases hj : first ≤ j ∧ j < first + n
    · rw [hfree j hj.1 hj.2] at hsum ⊢
      rw [if_pos hj, if_pos hj, Option.map_some, if_pos rfl]
      rw [if_neg (by decide)] at hsum
      omega
    · rw [if_neg hj, if_neg hj]
      exact hsum
  peers := h.peers

end Ledger

end PS5Torrent
