import PS5Torrent.TorrentMgr.Cooldown

/-!
# The table of candidates

The addresses of the candidates of a torrent are valid and pairwise distinct,
and their number and their failures are bounded (`CandidateTable`). A new
address takes the place of an old one only in a full table, and only of one
that failed most among those that are idle (`Adds`). Both hold after any
sequence of the operations on the candidates, and in every reachable state
(`candidates_of_run`).
-/

namespace PS5Torrent

open Relation Work TorrentMgr

variable {mt : ManagedTorrent} {candidates : List PeerCandidate} {c c' : PeerCandidate}
  {addr : PeerAddr} {i : ℕ} {f : PeerCandidate → PeerCandidate}

/-! ## The table -/

/-- An address that can be connected to. -/
structure PeerAddr.IsValid (addr : PeerAddr) : Prop where
  ip_ne_zero : addr.ip ≠ 0
  ip_ne_max : addr.ip ≠ 2 ^ 32 - 1
  port_ne_zero : addr.port ≠ 0

structure CandidateTable (candidates : List PeerCandidate) : Prop where
  length_le : candidates.length ≤ 200
  nodup : (candidates.map PeerCandidate.addr).Nodup
  valid : ∀ c ∈ candidates, c.addr.IsValid
  failures_le : ∀ c ∈ candidates, c.failures ≤ 5

namespace CandidateTable

theorem empty : CandidateTable [] where
  length_le := Nat.zero_le _
  nodup := List.nodup_nil
  valid _ hc := absurd hc List.not_mem_nil
  failures_le _ hc := absurd hc List.not_mem_nil

/-- The members of a table with a changed entry. -/
theorem mem_modify (hc : candidates[i]? = some c) (hc' : c' ∈ candidates.modify i f) :
    c' = f c ∨ c' ∈ candidates := by
  rw [List.modify_eq_set_getElem?, hc] at hc'
  rcases List.mem_or_eq_of_mem_set hc' with hmem | heq
  · exact .inr hmem
  · exact .inl heq

/-- An entry changes, but not its address. -/
theorem modify (h : CandidateTable candidates) (hc : candidates[i]? = some c)
    (haddr : (f c).addr = c.addr) (hfailures : (f c).failures ≤ 5) :
    CandidateTable (candidates.modify i f) where
  length_le := by
    rw [List.length_modify]
    exact h.length_le
  nodup := by
    have hmap : (candidates.modify i f).map PeerCandidate.addr =
        candidates.map PeerCandidate.addr := by
      rw [List.modify_eq_set_getElem?, hc, Option.map_eq_map, Option.map_some, Option.getD_some,
        List.map_set, haddr]
      refine Slots.set_getElem?_self ?_
      rw [List.getElem?_map, hc, Option.map_some]
    rw [hmap]
    exact h.nodup
  valid c' hc' := by
    rcases mem_modify hc hc' with rfl | hmem
    · rw [haddr]
      exact h.valid c (List.mem_of_getElem? hc)
    · exact h.valid c' hmem
  failures_le c' hc' := by
    rcases mem_modify hc hc' with rfl | hmem
    · exact hfailures
    · exact h.failures_le c' hmem

/-- A new address is added. -/
theorem add (h : CandidateTable candidates) (hlength : candidates.length ≠ MAX_TRACKER_PEERS)
    (haddr : addr.IsValid) (hnew : ∀ c ∈ candidates, c.addr ≠ addr) :
    CandidateTable (candidates ++ [⟨addr, 0, 0, false⟩]) where
  length_le := by
    have hle := h.length_le
    have hmax : MAX_TRACKER_PEERS = 200 := rfl
    rw [List.length_append, List.length_singleton]
    omega
  nodup := by
    rw [List.map_append, List.map_singleton, List.nodup_append]
    refine ⟨h.nodup, List.nodup_singleton _, fun a ha b hb => ?_⟩
    obtain ⟨c, hc, rfl⟩ := List.mem_map.1 ha
    rw [List.mem_singleton.1 hb]
    exact hnew c hc
  valid c hc := by
    rcases List.mem_append.1 hc with hc | hc
    · exact h.valid c hc
    · rw [List.mem_singleton.1 hc]
      exact haddr
  failures_le c hc := by
    rcases List.mem_append.1 hc with hc | hc
    · exact h.failures_le c hc
    · rw [List.mem_singleton.1 hc]
      exact Nat.zero_le _

/-- A new address takes the place of an old one. -/
theorem replace (h : CandidateTable candidates) (hc : candidates[i]? = some c)
    (haddr : addr.IsValid) (hnew : ∀ c ∈ candidates, c.addr ≠ addr) :
    CandidateTable (candidates.modify i fun _ => ⟨addr, 0, 0, false⟩) where
  length_le := by
    rw [List.length_modify]
    exact h.length_le
  nodup := by
    rw [List.modify_eq_set_getElem?, hc, Option.map_eq_map, Option.map_some, Option.getD_some,
      List.map_set]
    refine h.nodup.set fun hmem => ?_
    obtain ⟨c', hc', heq⟩ := List.mem_map.1 hmem
    exact hnew c' hc' heq
  valid c' hc' := by
    rcases mem_modify hc hc' with rfl | hmem
    · exact haddr
    · exact h.valid c' hmem
  failures_le c' hc' := by
    rcases mem_modify hc hc' with rfl | hmem
    · exact Nat.zero_le _
    · exact h.failures_le c' hmem

end CandidateTable

/-! ## Replacement -/

/-- The candidate at an index is idle and has failed. -/
structure Evictable (mt : ManagedTorrent) (i : ℕ) (c : PeerCandidate) : Prop where
  get : mt.peerCandidates[i]? = some c
  idle : c.connecting = false
  failed : c.failures ≠ 0
  closed : peerIsConnected mt c.addr = false

/-- A property of a fold that goes on with each element holds at its end. -/
theorem foldl_prefix {α β : Type*} {motive : List α → β → Prop} {step : β → α → β} {init : β}
    (hinit : motive [] init)
    (hstep : ∀ done b a, motive done b → motive (done ++ [a]) (step b a)) (l : List α) :
    motive l (l.foldl step init) := by
  induction l using List.reverseRecOn with
  | nil => exact hinit
  | append_singleton l a ih =>
    rw [List.foldl_append]
    exact hstep l _ a ih

/-- The best of the candidates looked at: none if none of them may be replaced. -/
structure Best (mt : ManagedTorrent) (done : List ℕ) (best : Option ℕ) : Prop where
  evictable : ∀ slot ∈ best, ∃ c, Evictable mt slot c
  le : ∀ i ∈ done, ∀ c, Evictable mt i c →
    ∃ slot ∈ best, ∃ c', Evictable mt slot c' ∧ c.failures ≤ c'.failures

/-- One more candidate is not better. -/
theorem Best.keep {done : List ℕ} {best : Option ℕ} (h : Best mt done best)
    (hle : ∀ c, Evictable mt i c →
      ∃ slot ∈ best, ∃ c', Evictable mt slot c' ∧ c.failures ≤ c'.failures) :
    Best mt (done ++ [i]) best where
  evictable := h.evictable
  le j hj c hc := by
    rcases List.mem_append.1 hj with hj | hj
    · exact h.le j hj c hc
    · rw [List.mem_singleton.1 hj] at hc
      exact hle c hc

/-- One more candidate is better. -/
theorem Best.replace {done : List ℕ} {best : Option ℕ} (h : Best mt done best)
    (hc : Evictable mt i c)
    (hlt : ∀ slot ∈ best, ∀ c', Evictable mt slot c' → c'.failures < c.failures) :
    Best mt (done ++ [i]) (some i) where
  evictable slot hslot := by
    obtain rfl := Option.some.inj hslot
    exact ⟨c, hc⟩
  le j hj c' hc' := by
    rcases List.mem_append.1 hj with hj | hj
    · obtain ⟨slot, hslot, c'', hc'', hle⟩ := h.le j hj c' hc'
      exact ⟨i, rfl, c, hc, hle.trans (hlt slot hslot c'' hc'').le⟩
    · rw [List.mem_singleton.1 hj] at hc'
      exact ⟨i, rfl, c', hc', le_rfl⟩

theorem Evictable.unique (h : Evictable mt i c) (h' : Evictable mt i c') : c = c' :=
  Option.some.inj (h.get.symm.trans h'.get)

theorem best_replacedCandidate (mt : ManagedTorrent) :
    Best mt (List.range mt.peerCandidates.length) (replacedCandidate mt) := by
  rw [replacedCandidate]
  refine foldl_prefix (motive := Best mt) ⟨?_, ?_⟩ (fun done best i h => ?_) _
  · exact fun slot hslot => absurd hslot (by simp)
  · exact fun i hi => absurd hi List.not_mem_nil
  cases hget : mt.peerCandidates[i]? with
  | none => exact h.keep fun c hc => absurd (hget.symm.trans hc.get) (by simp)
  | some c =>
    dsimp only
    split
    · rename_i hbetter
      simp only [Bool.and_eq_true, Bool.not_eq_true', decide_eq_true_eq] at hbetter
      obtain ⟨⟨⟨hidle, hfailed⟩, hclosed⟩, hall⟩ := hbetter
      refine h.replace ⟨hget, hidle, hfailed, hclosed⟩ fun slot hslot c' hc' => ?_
      obtain rfl : best = some slot := hslot
      rw [Option.bind_some, hc'.get] at hall
      exact of_decide_eq_true hall
    · rename_i hworse
      refine h.keep fun c' hc' => ?_
      obtain rfl : c = c' := Option.some.inj (hget.symm.trans hc'.get)
      cases best with
      | none =>
        refine absurd ?_ hworse
        simp [hc'.idle, hc'.failed, hc'.closed]
      | some slot =>
        obtain ⟨c'', hc''⟩ := h.evictable slot rfl
        refine ⟨slot, rfl, c'', hc'', not_lt.1 fun hlt => hworse ?_⟩
        simp [hc'.idle, hc'.failed, hc'.closed, hc''.get, hlt]

/-- What adding an address does: nothing if it is known, and in a full table it replaces one that
    failed most among the idle ones that failed. -/
structure Adds (mt : ManagedTorrent) (addr : PeerAddr) : Prop where
  known : (∃ c ∈ mt.peerCandidates, c.addr = addr) → addCandidate addr mt = mt
  full : mt.peerCandidates.length = 200 → (∀ c ∈ mt.peerCandidates, c.addr ≠ addr) →
    addCandidate addr mt = mt ∧ (¬addr.IsValid ∨ ∀ i c, ¬Evictable mt i c) ∨
    ∃ slot c, Evictable mt slot c ∧ (∀ i c', Evictable mt i c' → c'.failures ≤ c.failures) ∧
      (addCandidate addr mt).peerCandidates =
        mt.peerCandidates.set slot ⟨addr, 0, 0, false⟩

theorem findCandidate_isSome_iff :
    (findCandidate mt addr).isSome ↔ ∃ c ∈ mt.peerCandidates, c.addr = addr := by
  rw [findCandidate, List.findIdx?_isSome, List.any_eq_true]
  simp only [decide_eq_true_eq]

theorem adds_addCandidate (mt : ManagedTorrent) (addr : PeerAddr) : Adds mt addr where
  known hknown := by
    rw [addCandidate, findCandidate_isSome_iff.2 hknown, Bool.or_true, if_pos rfl]
  full hfull hnew := by
    have hfind : (findCandidate mt addr).isSome = false := by
      rw [Bool.eq_false_iff, Ne, findCandidate_isSome_iff]
      rintro ⟨c, hc, haddr⟩
      exact hnew c hc haddr
    have hmax : MAX_TRACKER_PEERS = 200 := rfl
    rw [addCandidate, hfind, hmax, if_pos hfull, Bool.or_false]
    split
    · rename_i hinvalid
      refine .inl ⟨rfl, .inl fun hvalid => ?_⟩
      simp only [Bool.or_eq_true, decide_eq_true_eq] at hinvalid
      rcases hinvalid with (hzero | hip) | hport
      · exact hvalid.ip_ne_zero hzero
      · exact hvalid.ip_ne_max hip
      · exact hvalid.port_ne_zero hport
    have hbest := best_replacedCandidate mt
    cases hslot : replacedCandidate mt with
    | none =>
      refine .inl ⟨rfl, .inr fun i c hc => ?_⟩
      have hi : i < mt.peerCandidates.length := (List.getElem?_eq_some_iff.1 hc.get).1
      obtain ⟨slot, hmem, -⟩ := hbest.le i (List.mem_range.2 hi) c hc
      rw [hslot] at hmem
      exact absurd hmem (by simp)
    | some slot =>
      obtain ⟨c, hc⟩ := hbest.evictable slot hslot
      refine .inr ⟨slot, c, hc, fun i c' hc' => ?_, ?_⟩
      · have hi : i < mt.peerCandidates.length := (List.getElem?_eq_some_iff.1 hc'.get).1
        obtain ⟨slot', hmem, c'', hc'', hle⟩ := hbest.le i (List.mem_range.2 hi) c' hc'
        rw [hslot] at hmem
        obtain rfl := Option.some.inj hmem
        rwa [hc.unique hc'']
      · dsimp only
        rw [replaceCandidate, hc.get]
        dsimp only [ManagedTorrent.log, ManagedTorrent.modifyCandidate]
        rw [List.modify_eq_set_getElem?, hc.get]
        rfl

/-! ## Operations -/

theorem candidateTable_addCandidate (addr : PeerAddr) (h : CandidateTable mt.peerCandidates) :
    CandidateTable (addCandidate addr mt).peerCandidates := by
  rw [addCandidate]
  split
  case isTrue => exact h
  case isFalse haccepted =>
    simp only [Bool.or_eq_true, decide_eq_true_eq, not_or, Option.not_isSome_iff_eq_none]
      at haccepted
    obtain ⟨⟨⟨hzero, hmax⟩, hport⟩, hfind⟩ := haccepted
    have hnew : ∀ c ∈ mt.peerCandidates, c.addr ≠ addr := fun c => findCandidate_eq_none hfind
    split
    case isTrue =>
      cases replacedCandidate mt with
      | none => exact h
      | some slot =>
        dsimp only
        rw [replaceCandidate]
        cases hc : mt.peerCandidates[slot]? with
        | none => exact h
        | some c => exact h.replace hc ⟨hzero, hmax, hport⟩ hnew
    case isFalse hlength => exact h.add hlength ⟨hzero, hmax, hport⟩ hnew

theorem candidateTable_addCandidates (queue : List PeerAddr)
    (h : CandidateTable mt.peerCandidates) :
    CandidateTable (queue.foldl (fun mt addr => addCandidate addr mt) mt).peerCandidates := by
  induction queue generalizing mt with
  | nil => exact h
  | cons addr queue ih => exact ih (candidateTable_addCandidate addr h)

variable {w w' : Work}

theorem PeerCandidate.failures_failed_le (c : PeerCandidate) (now : ℕ) (h : c.failures ≤ 5) :
    (c.failed now).failures ≤ 5 := by
  rw [PeerCandidate.failed]
  dsimp only
  split <;> omega

theorem candidateTable_recordPeerFailure (addr : PeerAddr)
    (h : CandidateTable w.mt.peerCandidates) :
    CandidateTable (recordPeerFailure addr w).mt.peerCandidates := by
  rw [recordPeerFailure]
  cases hfind : findCandidate w.mt addr with
  | none => exact h
  | some i =>
    obtain ⟨c, hc, -⟩ := findCandidate_eq_some hfind
    exact h.modify hc rfl
      (c.failures_failed_le w.outcome.time (h.failures_le c (List.mem_of_getElem? hc)))

/-- Only the address, the failures and the number of candidates matter. -/
theorem candidateTable_updateCandidate (addr : PeerAddr) (haddr : ∀ c, (f c).addr = c.addr)
    (hfailures : ∀ c, (f c).failures ≤ c.failures) (h : CandidateTable mt.peerCandidates) :
    CandidateTable (mt.updateCandidate addr f).peerCandidates := by
  rw [ManagedTorrent.updateCandidate]
  cases hfind : findCandidate mt addr with
  | none => exact h
  | some i =>
    obtain ⟨c, hc, -⟩ := findCandidate_eq_some hfind
    exact h.modify hc (haddr c) ((hfailures c).trans (h.failures_le c (List.mem_of_getElem? hc)))

theorem candidateTable_applyConnection (job : PeerConnectJob)
    (h : CandidateTable w.mt.peerCandidates) :
    CandidateTable (applyConnection job w).mt.peerCandidates := by
  have hupdate := candidateTable_updateCandidate job.addr
    (f := fun c => { c with connecting := false }) (fun _ => rfl) (fun _ => le_rfl) h
  rw [applyConnection]
  dsimp only
  generalize w.mt.updateCandidate job.addr (fun c => { c with connecting := false }) = mt at hupdate
  cases job.sock with
  | none => exact candidateTable_recordPeerFailure (w := { w with mt := mt }) job.addr hupdate
  | some sock =>
    dsimp only
    split
    case isTrue => exact hupdate
    case isFalse =>
      split
      case h_1 => exact hupdate
      case h_2 mt' hadd =>
        obtain ⟨peers, active, rfl⟩ := addPeer_eq hadd
        exact hupdate

theorem candidateTable_disconnectPeer (i : ℕ) (h : CandidateTable w.mt.peerCandidates) :
    CandidateTable (disconnectPeer i w).mt.peerCandidates := by
  cases hp : w.mt.peers[i]? with
  | none =>
    rw [disconnectPeer_of_none hp]
    exact h
  | some p =>
    rw [disconnectPeer_eq hp]
    change CandidateTable (hangUp p w).mt.peerCandidates
    rw [hangUp]
    split
    case isTrue => exact h
    case isFalse =>
      dsimp only
      split
      case isTrue => exact candidateTable_recordPeerFailure p.addr h
      case isFalse => exact h

/-- A step of a tick keeps the table. -/
theorem Work.Step.candidateTable (hstep : Step w w') (h : CandidateTable w.mt.peerCandidates) :
    CandidateTable w'.mt.peerCandidates := by
  cases hstep with
  | query | discovery => exact h
  | report hmt =>
    rw [hmt]
    exact h
  | speed | takeCandidate | peer | receive | fail | claim | request | webSeed => exact h
  | postpone hc | connect _ hc =>
    have hle := h.failures_le _ (List.mem_of_getElem? hc)
    exact h.modify hc rfl hle
  | finish hstate hreceives hfull hhash hwrite =>
    obtain ⟨downloaded, heq⟩ := finishPiece_eq (getElem?_setPeer hreceives.peer _) hhash hwrite
    rw [heq]
    exact candidateTable_updateCandidate _ (fun _ => rfl) (fun _ => Nat.zero_le _) h
  | reject | writeFailed | disconnect => exact candidateTable_disconnectPeer _ h

theorem Work.Steps.candidateTable (hsteps : Steps w w') (h : CandidateTable w.mt.peerCandidates) :
    CandidateTable w'.mt.peerCandidates := by
  induction hsteps with
  | refl => exact h
  | tail _ hstep ih => exact hstep.candidateTable ih

theorem candidateTable_disconnectPeers (h : CandidateTable w.mt.peerCandidates) :
    CandidateTable (disconnectPeers w).mt.peerCandidates := by
  rw [disconnectPeers]
  generalize List.range w.mt.peers.length = is
  induction is generalizing w with
  | nil => exact h
  | cons i is ih => exact ih (candidateTable_disconnectPeer i h)

theorem candidateTable_stopTorrent (w : Work) :
    CandidateTable (stopTorrent w).mt.peerCandidates := by
  obtain ⟨queries, bytes, releases, pm, -, heq⟩ := stopTorrent_eq w
  rw [heq]
  exact .empty

theorem Work.Op.candidateTable (hop : Op w w') (hsound : w.Sound)
    (h : CandidateTable w.mt.peerCandidates) : CandidateTable w'.mt.peerCandidates := by
  cases hop with
  | tick hstate hsteps => exact hsteps.candidateTable h
  | complete => exact candidateTable_disconnectPeers h
  | start =>
    rcases startTorrent_cases w with ⟨heq, -⟩ | ⟨-, hopened⟩
    · rw [heq]
      exact h
    · rw [hopened.torrent, resetTorrent]
      split
      · exact candidateTable_stopTorrent w
      · exact h
  | stop => exact candidateTable_stopTorrent w
  | @candidates slot job => exact candidateTable_addCandidates job.queue h
  | @discovery slot job =>
    have hcandidates : (job.result.discovered w.outcome.time w.mt).peerCandidates =
        w.mt.peerCandidates := by
      rw [ManagedTorrent.discovered, adoptTrackerError, countTrackerFailure]
      split_ifs <;> rfl
    rw [applyDiscovery, ManagedTorrent.logRound]
    dsimp only
    rw [hcandidates]
    exact h
  | @connection slot job => exact candidateTable_applyConnection job h
  | @webSeed slot job hstate hslot hjob =>
    obtain ⟨first, hcommit⟩ := committing_collect hsound hstate hslot hjob
    change CandidateTable (applyWebSeed job w).mt.peerCandidates
    rw [hcommit.torrent]
    exact h

/-! ## Runs -/

theorem invariant_candidateTable : Invariant fun _ mt => CandidateTable mt.peerCandidates where
  added hadded _ := by
    obtain ⟨t, savePath, isMagnet, magnetUri, peerId, rfl, -⟩ := hadded
    exact .empty
  next h := h
  op hop hsound h := hop.candidateTable hsound h
  others _ _ _ h := h
  turn _ _ _ h := h

/-- An operation on the candidates of a torrent. -/
inductive CandidateStep : Work → Work → Prop
  | add {w : Work} (addr : PeerAddr) : CandidateStep w { w with mt := addCandidate addr w.mt }
  | fail {w : Work} (addr : PeerAddr) : CandidateStep w (recordPeerFailure addr w)
  | schedule {w : Work} : CandidateStep w (schedulePeerConnections w)
  | collect {w : Work} (job : PeerConnectJob) : CandidateStep w (applyConnection job w)

theorem CandidateStep.candidateTable (hstep : CandidateStep w w')
    (h : CandidateTable w.mt.peerCandidates) : CandidateTable w'.mt.peerCandidates := by
  cases hstep with
  | add addr => exact candidateTable_addCandidate addr h
  | fail addr => exact candidateTable_recordPeerFailure addr h
  | schedule => exact steps_schedulePeerConnections.candidateTable h
  | collect job => exact candidateTable_applyConnection job h

theorem candidateTable_of_run (hrun : ReflTransGen CandidateStep w w')
    (h : CandidateTable w.mt.peerCandidates) : CandidateTable w'.mt.peerCandidates := by
  induction hrun with
  | refl => exact h
  | tail _ hstep ih => exact hstep.candidateTable ih

/-- After any sequence of operations on the candidates of a torrent that had none, and in every
    reachable state, the table is well formed, and an address is added to it as it should be. -/
theorem candidates_of_run (addr : PeerAddr)
    (h : (∃ w w' : Work, w.mt.peerCandidates = [] ∧ ReflTransGen CandidateStep w w' ∧ w'.mt = mt) ∨
      ∃ m, Reachable m ∧ mt ∈ m.torrents) :
    CandidateTable mt.peerCandidates ∧ Adds mt addr := by
  refine ⟨?_, adds_addCandidate mt addr⟩
  rcases h with ⟨w, w', hnil, hrun, rfl⟩ | ⟨m, hm, hmt⟩
  · exact candidateTable_of_run hrun (hnil ▸ .empty)
  · exact invariant_candidateTable.reachable hm mt hmt

/-- The table is full, and some of its peers have failed. -/
theorem candidates_of_run_evicted : ∃ mt ∈ evictedMgr.torrents,
    mt.peerCandidates.length = 200 ∧ (∃ c ∈ mt.peerCandidates, c.failures = 1) ∧
      CandidateTable mt.peerCandidates ∧ Adds mt ⟨2, 2⟩ := by
  obtain ⟨mt, hmt, -, hlength, hfailed⟩ := full_evictedMgr
  exact ⟨mt, hmt, hlength, hfailed,
    candidates_of_run ⟨2, 2⟩ (.inr ⟨evictedMgr, ⟨_, _, _, _, rfl⟩, hmt⟩)⟩

end PS5Torrent
