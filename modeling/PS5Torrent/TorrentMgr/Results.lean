import PS5Torrent.TorrentMgr.Track
import PS5Torrent.TorrentMgr.Holders

/-!
# What becomes of results

A job is for the torrent that had its generation when it was scheduled. A
generation is given out once, and a torrent that has stopped downloading does
not download again in it; so when a result is collected, the torrent of its
generation that is downloading is the one that the job was scheduled for, and
it has been downloading ever since. What is collected is gone from its slot.
-/

namespace PS5Torrent

open Relation Work TorrentMgr

/-- There is a job of a generation. -/
def World.HasJob (world : World) (generation : ℕ) : Prop :=
  (∃ job, some job ∈ world.discoveryJobs ∧ job.result.generation = generation) ∨
    (∃ job, some job ∈ world.peerConnectJobs ∧ job.generation = generation) ∨
      ∃ job, some job ∈ world.webSeedJobs ∧ job.generation = generation

namespace TorrentMgr

/-- The collection of a slot in a tick. -/
inductive Collect : TorrentMgr → TorrentMgr → Prop
  | webSeed {m : TorrentMgr} (slot : ℕ) : Collect m (m.collectWebSeedJob slot)
  | discovery {m : TorrentMgr} (slot : ℕ) : Collect m (m.collectDiscoveryJob slot)
  | peerConnect {m : TorrentMgr} (slot : ℕ) : Collect m (m.collectPeerConnectJob slot)

/-- What the first part of a tick does, up to any slot. -/
abbrev Collects : TorrentMgr → TorrentMgr → Prop := ReflTransGen Collect

/-- The torrent at an index is downloading, in a generation. -/
def Downloads (m : TorrentMgr) (generation i : ℕ) : Prop :=
  ∃ mt ∈ m.torrents[i]?, mt.generation = generation ∧ mt.state = .downloading

/-- The torrent at an index is downloading, in one generation, throughout a run. -/
def KeepsDownloading (m : TorrentMgr) (generation i : ℕ) : List Event → Prop
  | [] => m.Downloads generation i
  | event :: events => m.Downloads generation i ∧
      ∀ k ∈ m.position i event, (m.step event).KeepsDownloading generation k events

end TorrentMgr

variable {m m' : TorrentMgr} {mt mt' : ManagedTorrent} {generation i j k slot : ℕ}
  {events : List Event}

/-! ## Generations -/

/-- The torrents have different generations. -/
theorem TorrentMgr.Sound.index_eq (h : m.Sound) (hmt : m.torrents[i]? = some mt)
    (hmt' : m.torrents[j]? = some mt') (hgen : mt'.generation = mt.generation) : j = i := by
  by_contra hne
  exact h.generation_ne hmt' hmt hne hgen

/-- What the torrents of a generation keep in each of their operations, they keep in a move. -/
theorem forall_generation_move {P : ManagedTorrent → Prop}
    (hP : ∀ w w' : Work, w.Confined w' → w'.mt.generation = w.mt.generation → P w.mt → P w'.mt)
    (hmove : Move m m') (hsound : m.Sound) (hlt : generation < m.nextGeneration)
    (h : ∀ mt ∈ m.torrents, mt.generation = generation → P mt) :
    generation < m'.nextGeneration ∧ ∀ mt ∈ m'.torrents, mt.generation = generation → P mt := by
  cases hmove with
  | @op i mt w hmt hop =>
    have hmem := List.mem_of_getElem? hmt
    have hconfined := hop.confined (hsound.torrents mt hmem)
    refine ⟨?_, fun mt' hmt' hgen => ?_⟩
    · rcases hconfined.generation with ⟨-, hnext⟩ | ⟨-, hnext⟩
      · exact hlt.trans_le hnext.ge
      · exact hlt.trans_le (hnext ▸ Nat.le_succ _)
    · rcases List.mem_or_eq_of_mem_set hmt' with hmem' | rfl
      · exact h mt' hmem' hgen
      · rcases hconfined.generation with ⟨hsame, -⟩ | ⟨hnew, -⟩
        · exact hP _ _ hconfined hsame (h mt hmem (hsame.symm.trans hgen))
        · exact absurd (hgen.symm.trans hnew) hlt.ne
  | turn hturn => exact ⟨hlt.trans_le hturn.inherits.nextGeneration.ge, h⟩
  | add hadded =>
    refine ⟨hlt.trans_le (Nat.le_succ _), fun mt' hmt' hgen => ?_⟩
    rcases List.mem_append.1 hmt' with hmem | hmem
    · exact h mt' hmem hgen
    · obtain ⟨_, _, _, _, _, rfl, -⟩ := hadded
      rw [List.mem_singleton.1 hmem] at hgen
      exact absurd hgen.symm hlt.ne
  | remove => exact ⟨hlt, fun mt' hmt' => h mt' (List.mem_of_mem_eraseIdx hmt')⟩

theorem forall_generation_moves {P : ManagedTorrent → Prop}
    (hP : ∀ w w' : Work, w.Confined w' → w'.mt.generation = w.mt.generation → P w.mt → P w'.mt)
    (hmoves : Moves m m') (hsound : m.Sound) (hlt : generation < m.nextGeneration)
    (h : ∀ mt ∈ m.torrents, mt.generation = generation → P mt) :
    generation < m'.nextGeneration ∧ ∀ mt ∈ m'.torrents, mt.generation = generation → P mt := by
  have hboth : m'.Sound ∧ generation < m'.nextGeneration ∧
      ∀ mt ∈ m'.torrents, mt.generation = generation → P mt := by
    induction hmoves with
    | refl => exact ⟨hsound, hlt, h⟩
    | tail _ hmove ih =>
      exact ⟨hmove.sound ih.1, forall_generation_move hP hmove ih.1 ih.2.1 ih.2.2⟩
  exact hboth.2

theorem sound_of_moves (hmoves : Moves m m') (hsound : m.Sound) : m'.Sound := by
  induction hmoves with
  | refl => exact hsound
  | tail _ hmove ih => exact hmove.sound ih

/-- What a torrent keeps in each of its operations, it keeps as long as it is in its generation. -/
theorem of_moves {P : ManagedTorrent → Prop}
    (hP : ∀ w w' : Work, w.Confined w' → w'.mt.generation = w.mt.generation → P w.mt → P w'.mt)
    (hmoves : Moves m m') (hsound : m.Sound) (hmt : m.torrents[i]? = some mt) (h : P mt) :
    ∀ mt' ∈ m'.torrents, mt'.generation = mt.generation → P mt' := by
  refine (forall_generation_moves hP hmoves hsound
    (hsound.torrents mt (List.mem_of_getElem? hmt)).below fun mt' hmt' hgen => ?_).2
  obtain ⟨j, hj⟩ := List.mem_iff_getElem?.1 hmt'
  obtain rfl := hsound.index_eq hmt hj hgen
  exact Option.some.inj (hj.symm.trans hmt) ▸ h

/-- A torrent that stays in its generation stays set up. -/
theorem initialized_of_moves (hmoves : Moves m m') (hsound : m.Sound)
    (hmt : m.torrents[i]? = some mt) (hinit : mt.Initialized) :
    ∀ mt' ∈ m'.torrents, mt'.generation = mt.generation → mt'.Initialized :=
  of_moves (fun _ _ hconfined hsame hinit => (hconfined.continues hsame hinit).1) hmoves hsound hmt
    hinit

/-- A torrent that is set up and downloads later in its generation downloads now. -/
theorem downloads_of_moves (hmoves : Moves m m') (hsound : m.Sound)
    (hmt : m.torrents[i]? = some mt) (hinit : mt.Initialized)
    (hdownloads : m'.Downloads mt.generation k) : m.Downloads mt.generation i := by
  obtain ⟨mt', hmt', hgen, hstate⟩ := hdownloads
  refine ⟨mt, hmt, rfl, ?_⟩
  by_contra hnot
  have hlater := of_moves (P := fun mt => mt.Initialized ∧ mt.state ≠ .downloading)
    (fun w w' hconfined hsame h =>
      have hback := hconfined.continues hsame h.1
      ⟨hback.1, fun hdownloading => h.2 (hback.2 hdownloading)⟩)
    hmoves hsound hmt ⟨hinit, hnot⟩
  exact (hlater mt' (List.mem_of_getElem? hmt') hgen).2 hstate

/-! ## The live torrent of a generation -/

/-- A generation that is there later and was there before is there in between. -/
theorem exists_generation {m₁ : TorrentMgr} (hfirst : Moves m m₁) (hrest : Moves m₁ m')
    (hsound : m.Sound) (hmt : m.torrents[i]? = some mt) (hdownloads : m'.Downloads mt.generation k) :
    ∃ (j : ℕ) (mt₁ : ManagedTorrent), m₁.torrents[j]? = some mt₁ ∧
      mt₁.generation = mt.generation := by
  obtain ⟨mt', hmt', hgen, -⟩ := hdownloads
  by_contra hnone
  have hbelow := (forall_generation_moves (P := fun _ => True) (fun _ _ _ _ _ => trivial) hfirst
    hsound (hsound.torrents mt (List.mem_of_getElem? hmt)).below fun _ _ _ => trivial).1
  have hsound₁ := sound_of_moves hfirst hsound
  refine (forall_generation_moves (P := fun _ => False) (fun _ _ _ _ h => h) hrest hsound₁ hbelow
    fun mt₁ hmt₁ hgen₁ => ?_).2 mt' (List.mem_of_getElem? hmt') hgen
  obtain ⟨j, hj⟩ := List.mem_iff_getElem?.1 hmt₁
  exact hnone ⟨j, mt₁, hj, hgen₁⟩

/-- A torrent that is downloading in a generation, in which a torrent was set up before, is that
    torrent, and it has been downloading in between. -/
theorem keepsDownloading_of_downloads (hm : Reachable m) (hmt : m.torrents[i]? = some mt)
    (hinit : mt.Initialized) (hstays : Stays (m.run events) m')
    (hdownloads : m'.Downloads mt.generation k) :
    m.track i events = some k ∧ m.KeepsDownloading mt.generation i events := by
  induction events generalizing m i mt with
  | nil =>
    have hsound := sound_of_reachable hm
    have hnow := downloads_of_moves hstays.moves hsound hmt hinit hdownloads
    obtain ⟨mt', hmt', hgen, -⟩ := hdownloads
    obtain ⟨mt₀, hmt₀, hgen₀⟩ := (hstays.keeps hsound).origin k mt' hmt'
      (hgen ▸ (hsound.torrents mt (List.mem_of_getElem? hmt)).below)
    exact ⟨hsound.index_eq hmt hmt₀ (hgen₀.trans hgen) ▸ rfl, hnow⟩
  | cons event events ih =>
    have hsound := sound_of_reachable hm
    have hsound' := sound_of_reachable (hm.step event)
    have hfirst := moves_step event hsound (invariant_timed.reachable hm)
    have hrest := (moves_run events hsound' (invariant_timed.reachable (hm.step event))).trans
      hstays.moves
    have hnow := downloads_of_moves (hfirst.trans hrest) hsound hmt hinit hdownloads
    -- The record of the generation after the event is that of the torrent.
    obtain ⟨j, mt₁, hmt₁, hgen₁⟩ := exists_generation hfirst hrest hsound hmt hdownloads
    obtain ⟨i', mt₀, hmt₀, hposition, hgen₀⟩ := exists_origin hm hmt₁
      (hgen₁ ▸ (hsound.torrents mt (List.mem_of_getElem? hmt)).below)
    obtain rfl := hsound.index_eq hmt hmt₀ (hgen₀.trans hgen₁)
    have hinit₁ := initialized_of_moves hfirst hsound hmt hinit mt₁ (List.mem_of_getElem? hmt₁) hgen₁
    obtain ⟨htrack, hkeeps⟩ := ih (hm.step event) hmt₁ hinit₁ hstays (hgen₁ ▸ hdownloads)
    refine ⟨?_, hnow, fun k' hk' => ?_⟩
    · rw [track, hposition]
      exact htrack
    · rw [Option.mem_def, hposition, Option.some.injEq] at hk'
      exact hk' ▸ hgen₁ ▸ hkeeps

/-! ## Collection -/

/-- Work on the live torrent of a generation changes no other one. -/
theorem downloads_of_onLive {f : Work → Work}
    (h : (m.onLive generation f).torrents[k]? ≠ m.torrents[k]?) : m.Downloads generation k := by
  rw [onLive] at h
  cases hlive : m.live generation with
  | none =>
    rw [hlive] at h
    exact absurd rfl h
  | some i =>
    rw [hlive] at h
    obtain ⟨mt, hmt, hgen, hstate⟩ := live_eq_some hlive
    by_cases hik : i = k
    · exact ⟨mt, hik ▸ hmt, hgen, hstate⟩
    · exact absurd (getElem?_onTorrent_of_ne hik) h

theorem downloads_of_collectWebSeedJob {job : WebSeedJob}
    (hjob : m.webSeedJobs[slot]?.join = some job)
    (h : (m.collectWebSeedJob slot).torrents[k]? ≠ m.torrents[k]?) :
    m.Downloads job.generation k := by
  rw [collectWebSeedJob, hjob] at h
  dsimp only at h
  split at h
  · exact absurd rfl h
  · exact downloads_of_onLive h

theorem downloads_of_collectPeerConnectJob {job : PeerConnectJob}
    (hjob : m.peerConnectJobs[slot]?.join = some job)
    (h : (m.collectPeerConnectJob slot).torrents[k]? ≠ m.torrents[k]?) :
    m.Downloads job.generation k := by
  rw [collectPeerConnectJob, hjob] at h
  dsimp only at h
  split at h
  · exact absurd rfl h
  · exact downloads_of_onLive h

/-- A discovery brings addresses first, and then its result. -/
theorem downloads_of_collectDiscoveryJob {job : DiscoveryJob}
    (hjob : m.discoveryJobs[slot]?.join = some job)
    (h : (m.collectDiscoveryJob slot).torrents[k]? ≠ m.torrents[k]?) :
    m.Downloads job.result.generation k := by
  rw [collectDiscoveryJob, hjob] at h
  dsimp only at h
  have hfirst := @downloads_of_onLive m job.result.generation k
    (fun w => { w with mt := job.queue.foldl (fun mt addr => addCandidate addr mt) w.mt })
  generalize m.onLive job.result.generation (fun w => { w with
    mt := job.queue.foldl (fun mt addr => addCandidate addr mt) w.mt }) = m₁ at h hfirst
  by_cases hsame : m₁.torrents[k]? = m.torrents[k]?
  · split at h
    · exact absurd hsame h
    · rw [← hsame] at h
      have hlater : m₁.Downloads job.result.generation k := downloads_of_onLive h
      rw [TorrentMgr.Downloads, hsame] at hlater
      exact hlater
  · exact hfirst hsame

theorem Collects.stays (h : Collects m m') : Stays m m' := by
  induction h with
  | refl => exact .refl
  | tail _ hcollect ih =>
    cases hcollect with
    | webSeed slot => exact ih.trans stays_collectWebSeedJob
    | discovery slot => exact ih.trans stays_collectDiscoveryJob
    | peerConnect slot => exact ih.trans stays_collectPeerConnectJob

/-- A slot that is set has the entry, if there is such a slot. -/
theorem join_set {Job : Type} (jobs : List (Option Job)) (slot : ℕ) (entry : Option Job) :
    (jobs.set slot entry)[slot]?.join = none ∨ (jobs.set slot entry)[slot]?.join = entry := by
  rw [List.getElem?_set, if_pos rfl]
  split
  · exact .inr rfl
  · exact .inl rfl

/-- A slot that is emptied is free. -/
theorem join_set_none {Job : Type} (jobs : List (Option Job)) (slot : ℕ) :
    (jobs.set slot none)[slot]?.join = none := by
  rcases join_set jobs slot none with h | h
  · exact h
  · exact h

/-! ## A run -/

/-- All that changes in the torrents is the record of the one that was at an index before a run,
    which has been downloading in its generation ever since and is downloading now. -/
def TorrentMgr.ChangesOnly (m : TorrentMgr) (generation i : ℕ) (events : List Event)
    (m' m'' : TorrentMgr) : Prop :=
  ∀ k, m''.torrents[k]? ≠ m'.torrents[k]? →
    m.track i events = some k ∧ m.KeepsDownloading generation i events ∧ m'.Downloads generation k

/-- From a state in which a torrent has a job, and at any time in any run: collecting a result of
    its generation changes at most its record, wherever that is then, and only if it has been
    downloading ever since; a result is collected once; and a removal leaves the records of the
    other torrents as they are. -/
theorem results_of_reachable (hm : Reachable m) (hmt : m.torrents[i]? = some mt)
    (hjob : m.HasJob mt.generation) (hcollects : Collects (m.run events) m') :
    (∀ slot job, m'.webSeedJobs[slot]?.join = some job → job.generation = mt.generation →
      m.ChangesOnly mt.generation i events m' (m'.collectWebSeedJob slot) ∧
        (job.done → (m'.collectWebSeedJob slot).webSeedJobs[slot]?.join = none)) ∧
    (∀ slot job, m'.peerConnectJobs[slot]?.join = some job → job.generation = mt.generation →
      m.ChangesOnly mt.generation i events m' (m'.collectPeerConnectJob slot) ∧
        (job.done → (m'.collectPeerConnectJob slot).peerConnectJobs[slot]?.join = none)) ∧
    (∀ slot job, m'.discoveryJobs[slot]?.join = some job →
      job.result.generation = mt.generation →
      m.ChangesOnly mt.generation i events m' (m'.collectDiscoveryJob slot) ∧
        (job.done → (m'.collectDiscoveryJob slot).discoveryJobs[slot]?.join = none) ∧
          ∀ job' ∈ (m'.collectDiscoveryJob slot).discoveryJobs[slot]?.join, job'.queue = []) ∧
    ∀ (index : ℤ) (j k : ℕ) (mt' : ManagedTorrent), (m.run events).torrents[j]? = some mt' →
      (m.run events).position j (.remove index) = some k →
        ((m.run events).torrentMgrRemove index).torrents[k]? = some mt' := by
  have hinit : mt.Initialized := by
    by_contra hnot
    obtain ⟨-, hnone⟩ := ((sound_of_reachable hm).torrents mt (List.mem_of_getElem? hmt)).idle hnot
    rcases hjob with ⟨job, hmem, hgen⟩ | ⟨job, hmem, hgen⟩ | ⟨job, hmem, hgen⟩
    · exact hnone.discovery job hmem hgen
    · exact hnone.peerConnect job hmem hgen
    · exact hnone.webSeed job hmem hgen
  have hkeeps (k : ℕ) (h : m'.Downloads mt.generation k) :
      m.track i events = some k ∧ m.KeepsDownloading mt.generation i events ∧
        m'.Downloads mt.generation k :=
    have htrack := keepsDownloading_of_downloads hm hmt hinit (Collects.stays hcollects) h
    ⟨htrack.1, htrack.2, h⟩
  refine ⟨fun slot job hslot hgen => ⟨fun k h => ?_, fun hdone => ?_⟩,
    fun slot job hslot hgen => ⟨fun k h => ?_, fun hdone => ?_⟩,
    fun slot job hslot hgen => ⟨fun k h => ?_, fun hdone => ?_, fun job' hjob' => ?_⟩,
    fun index j k mt' hmt' hposition => getElem?_torrentMgrRemove hmt' hposition⟩
  · exact hkeeps k (hgen ▸ downloads_of_collectWebSeedJob hslot h)
  · rw [collectWebSeedJob, hslot]
    dsimp only
    rw [hdone, if_neg (by simp)]
    exact join_set_none _ _
  · exact hkeeps k (hgen ▸ downloads_of_collectPeerConnectJob hslot h)
  · rw [collectPeerConnectJob, hslot]
    dsimp only
    rw [hdone, if_neg (by simp)]
    exact join_set_none _ _
  · exact hkeeps k (hgen ▸ downloads_of_collectDiscoveryJob hslot h)
  · rw [collectDiscoveryJob, hslot]
    dsimp only
    rw [hdone, if_neg (by simp)]
    exact join_set_none _ _
  · rw [collectDiscoveryJob, hslot] at hjob'
    dsimp only at hjob'
    split at hjob'
    · dsimp only at hjob'
      rcases join_set _ slot (some { job with queue := [] }) with h | h
      · rw [h] at hjob'
        cases hjob'
      · rw [h] at hjob'
        obtain rfl := Option.some.inj hjob'
        rfl
    · rw [join_set_none] at hjob'
      cases hjob'

/-- A manager with a torrent whose trackers are being asked. -/
def askingMgr : TorrentMgr :=
  (TorrentMgr.init (sysWith []) (fun _ => []) talkingEnv).run
    [.addRaw trackedTorrent (lit "/d") [], .start 0, .tick]

/-- When the torrent is stopped and started again, what its trackers were asked before brings it
    nothing. -/
theorem results_of_reachable_restarted :
    ∃ mt job, askingMgr.torrents[0]? = some mt ∧
      (askingMgr.run [.stop 0, .start 0]).discoveryJobs[7]?.join = some job ∧
      askingMgr.ChangesOnly mt.generation 0 [.stop 0, .start 0] (askingMgr.run [.stop 0, .start 0])
        ((askingMgr.run [.stop 0, .start 0]).collectDiscoveryJob 7) := by
  have hfacts : ∃ mt ∈ askingMgr.torrents[0]?,
      (askingMgr.discoveryJobs.any fun slot =>
        slot.any fun job => job.result.generation = mt.generation) ∧
      ∃ job ∈ (askingMgr.run [.stop 0, .start 0]).discoveryJobs[7]?.join,
        job.result.generation = mt.generation := by
    decide +kernel
  obtain ⟨mt, hmt, hany, job, hslot, hgen⟩ := hfacts
  have hreachable : Reachable askingMgr := ⟨_, _, _, _, rfl⟩
  generalize askingMgr = m at *
  obtain ⟨entry, hmem, hentry⟩ := List.any_eq_true.1 hany
  obtain ⟨job', rfl, hgen'⟩ := (Option.any_eq_true _ _).1 hentry
  have hjob : m.HasJob mt.generation := .inl ⟨job', hmem, of_decide_eq_true hgen'⟩
  exact ⟨mt, job, hmt, hslot,
    ((results_of_reachable hreachable hmt hjob .refl).2.2.1 7 job hslot hgen).1⟩

end PS5Torrent
