import PS5Torrent.TorrentMgr.Cooldown
import PS5Torrent.TorrentMgr.Download

/-!
# The announces of a torrent

At most one discovery of a torrent is outstanding, a tracker is asked again no
sooner than it said, and a round after failed ones waits as long as these
demand (`announces_of_reachable`), as long as no round asks a URL twice: a URL
that occurs twice in the announce list is asked twice at once
(`exists_repeatedMgr`).

The next round waits for the time of the last one and the interval of the
torrent (`ManagedTorrent.Waits`); an outstanding job knows the longest interval
that was returned to it (`World.Announced`).
-/

namespace PS5Torrent

open Slots Relation Work TorrentMgr

/-! ## Trackers -/

/-- Whether a round asks a URL of the torrent. -/
def Torrent.asks (t : Torrent) (url : Bool × Bytes) : Bool :=
  ((lit "http://").isPrefixOf url.2 || (lit "udp://").isPrefixOf url.2) &&
    (url.1 || t.announce ≠ some url.2)

/-- The URLs among some that a round asks. -/
def Torrent.asked (t : Torrent) (urls : List (Bool × Bytes)) : List Bytes :=
  (urls.filter t.asks).map Prod.snd

/-- Each URL is asked once in a round. -/
def Torrent.AsksOnce (t : Torrent) : Prop := (t.asked (trackerUrls t)).Nodup

instance (t : Torrent) : Decidable t.AsksOnce :=
  inferInstanceAs (Decidable (t.asked (trackerUrls t)).Nodup)

/-! ## Histories -/

/-- The rounds in a row that have failed. -/
def failedInRow : List RoundLog → ℕ
  | [] => 0
  | .started _ :: log => failedInRow log
  | .collected _ failed :: log => if failed then failedInRow log + 1 else 0

/-- Each round starts after the delay of each failed round before it. -/
def SpacedRounds (log : List RoundLog) : Prop :=
  ∀ newer mid older time now, log = newer ++ .started now :: (mid ++ .collected time true :: older) →
    time + retryDelay (failedInRow older + 1) ≤ now

/-- Each announce comes after the interval of each announce to its URL before it. -/
def SpacedAnnounces (announces : List Announce) : Prop :=
  announces.Pairwise fun b a => a.generation = b.generation → a.url = b.url → b.torrent.AsksOnce →
    ∀ interval, a.interval = some interval → (a.time : ℤ) + interval ≤ b.time

variable {log : List RoundLog} {now : ℕ}

theorem SpacedRounds.started (h : SpacedRounds log)
    (hnow : ∀ mid older time, log = mid ++ .collected time true :: older →
      time + retryDelay (failedInRow older + 1) ≤ now) : SpacedRounds (.started now :: log) := by
  rintro (_ | ⟨entry, newer⟩) mid older time now' hlog
  · obtain ⟨hentry, hrest⟩ := List.cons.inj hlog
    cases hentry
    exact hnow mid older time hrest
  · exact h newer mid older time now' (List.cons.inj hlog).2

theorem SpacedRounds.collected (h : SpacedRounds log) (time : ℕ) (failed : Bool) :
    SpacedRounds (.collected time failed :: log) := by
  rintro (_ | ⟨entry, newer⟩) mid older time' now' hlog
  · cases (List.cons.inj hlog).1
  · exact h newer mid older time' now' (List.cons.inj hlog).2

/-! ## Waiting -/

/-- A time as late was read. -/
def World.Elapsed (world : World) (time : ℤ) : Prop := ∃ now, world.Read now ∧ time ≤ now

/-- The next round comes no sooner than the delay after the time. -/
def ManagedTorrent.Waits (time : ℕ) (delay : ℤ) (mt : ManagedTorrent) : Prop :=
  time + delay ≤ mt.lastAnnounceTime ∨
    0 < time ∧ time ≤ mt.lastAnnounceTime ∧ delay ≤ mt.trackerInterval

/-- A discovery of the generation is not collected yet. -/
def World.Outstanding (world : World) (generation : ℕ) : Prop :=
  ∃ job, some job ∈ world.discoveryJobs ∧ job.result.generation = generation

/-- What the announces and the rounds of a torrent demand, the next round waits
    for, and a round that has started has waited for. -/
structure ManagedTorrent.Rests (world : World) (mt : ManagedTorrent) : Prop where
  announces : ¬world.Outstanding mt.generation → ∀ a ∈ world.announces,
    a.generation = mt.generation → ∀ interval, a.interval = some interval →
      mt.Waits a.time interval
  failures : mt.trackerFailures = min 5 (failedInRow mt.rounds)
  rounds : ∀ newer older time, mt.rounds = newer ++ .collected time true :: older →
    mt.Waits time (retryDelay (failedInRow older + 1))
  waited : world.Outstanding mt.generation → ∀ newer older time,
    mt.rounds = newer ++ .collected time true :: older →
      time + retryDelay (failedInRow older + 1) ≤ mt.lastAnnounceTime
  spaced : SpacedRounds mt.rounds

/-- An outstanding job asks its URLs in turn, and the announces before are long
    ago or its own. -/
structure DiscoveryJob.Asking (world : World) (job : DiscoveryJob) (passed : List (Bool × Bytes)) :
    Prop where
  urls : trackerUrls job.result.torrent = passed ++ job.urls
  announces : ∀ a ∈ world.announces, a.generation = job.result.generation →
    ∀ interval, a.interval = some interval → world.Elapsed (a.time + interval) ∨
      interval ≤ job.result.trackerInterval ∧ a.url ∈ job.result.torrent.asked passed

/-- The announces so far, and the jobs that go on with them. -/
structure World.Announced (world : World) : Prop where
  unique : ∀ {i j : ℕ} {job job' : DiscoveryJob}, world.discoveryJobs[i]? = some (some job) →
    world.discoveryJobs[j]? = some (some job') →
      job.result.generation = job'.result.generation → i = j
  jobs : ∀ job, some job ∈ world.discoveryJobs → ∃ passed, job.Asking world passed
  finished : ∀ job, some job ∈ world.discoveryJobs → job.done →
    job.urls = [] ∧ (job.result.errorType = .none ↔ 0 < job.peersReported)
  times : ∀ a ∈ world.announces, 0 < a.time ∧ world.Read a.time
  spaced : SpacedAnnounces world.announces

variable {w w' : Work} {world world' : World} {mt mt' : ManagedTorrent} {job job' : DiscoveryJob}
  {passed : List (Bool × Bytes)} {time : ℕ} {delay : ℤ} {slot : ℕ}

theorem World.Elapsed.mono (h : world.Elapsed delay)
    (hread : ∀ time, world.Read time → world'.Read time) :
    world'.Elapsed delay := by
  obtain ⟨now, hnow, hle⟩ := h
  exact ⟨now, hread now hnow, hle⟩

theorem ManagedTorrent.Waits.of_eq (h : mt.Waits time delay) (hsame : mt'.announcing = mt.announcing) :
    mt'.Waits time delay := by
  obtain ⟨hlast, hrest⟩ := Announcing.mk.inj hsame
  rw [Waits, hlast, hrest.1]
  exact h

/-- The jobs and the announces stay as they are. -/
theorem World.Announced.mono (h : world.Announced) (hextends : world.Extends world')
    (hjobs : world'.discoveryJobs = world.discoveryJobs) : world'.Announced where
  unique hi hj := h.unique (hjobs ▸ hi) (hjobs ▸ hj)
  jobs job hjob := by
    obtain ⟨passed, hpassed⟩ := h.jobs job (hjobs ▸ hjob)
    refine ⟨passed, hpassed.urls, fun a ha hgen interval hinterval => ?_⟩
    rw [hextends.announces] at ha
    exact (hpassed.announces a ha hgen interval hinterval).imp_left fun helapsed =>
      helapsed.mono fun _ => hextends.read
  finished job hjob := h.finished job (hjobs ▸ hjob)
  times a ha := by
    rw [hextends.announces] at ha
    exact ⟨(h.times a ha).1, hextends.read (h.times a ha).2⟩
  spaced := by
    rw [hextends.announces]
    exact h.spaced

theorem ManagedTorrent.Rests.of_eq (h : mt.Rests world) (hannounces : world'.announces = world.announces)
    (hjobs : world'.Outstanding mt.generation ↔ world.Outstanding mt.generation)
    (hsame : mt'.announcing = mt.announcing) (hgeneration : mt'.generation = mt.generation) :
    mt'.Rests world' := by
  obtain ⟨hlast, -, hfailures, hrounds⟩ := Announcing.mk.inj hsame
  refine ⟨fun hnone a ha hgen interval hinterval => ?_, ?_, fun newer older time hlog => ?_,
    fun hjob newer older time hlog => ?_, ?_⟩
  · rw [hgeneration] at hnone hgen
    rw [hannounces] at ha
    exact (h.announces (fun hjob => hnone (hjobs.2 hjob)) a ha hgen interval hinterval).of_eq hsame
  · rw [hfailures, hrounds]
    exact h.failures
  · rw [hrounds] at hlog
    exact (h.rounds newer older time hlog).of_eq hsame
  · rw [hgeneration] at hjob
    rw [hrounds] at hlog
    rw [hlast]
    exact h.waited (hjobs.1 hjob) newer older time hlog
  · rw [hrounds]
    exact h.spaced

theorem sub64_le {a b : ℕ} (h : b ≤ a) : sub64 a b ≤ a - b := by
  rw [sub64, toUInt64]
  omega

/-- A round starts when the wait is over. -/
theorem ManagedTorrent.Waits.le (h : mt.Waits time delay) (hclock : world.ClockMonotone)
    (hdue : mt.AnnounceDue now) (hread : mt.ReadAfter world now) : time + delay ≤ now := by
  obtain ⟨k, hk, htime, htimed⟩ := hread
  have hlast : mt.lastAnnounceTime ≤ now := by
    rcases htimed with hzero | ⟨j, hj, hlast⟩
    · rw [hzero]
      exact Nat.zero_le _
    · rw [← hlast, ← htime]
      exact hclock (Nat.le_of_lt hj)
  rcases h with hle | ⟨hpos, hle, hdelay⟩
  · exact hle.trans (Int.ofNat_le.2 hlast)
  · rcases hdue with hzero | ⟨hinterval, hdue⟩
    · omega
    · have hsub := sub64_le hlast
      omega

/-! ## Steps -/

theorem ManagedTorrent.ReadAfter.read (h : mt.ReadAfter world now) : world.Read now := by
  obtain ⟨k, hk, htime, -⟩ := h
  exact ⟨k, hk, htime⟩

/-- A round starts. -/
theorem announced_launchDiscovery (hclock : w.ClockMonotone)
    (hnone : ∀ job, some job ∈ w.discoveryJobs → job.result.generation ≠ w.mt.generation)
    (hdue : w.mt.AnnounceDue now) (hread : w.mt.ReadAfter w.toWorld now) (h : w.Announced)
    (hrests : w.mt.Rests w.toWorld) : (launchDiscovery slot now w).Announced ∧
      (launchDiscovery slot now w).mt.Rests (launchDiscovery slot now w).toWorld := by
  have hle : now ≤ w.outcome.time := le_time_of_read hclock hread.read
  have hover : ∀ a ∈ w.announces, a.generation = w.mt.generation →
      ∀ interval, a.interval = some interval → (a.time : ℤ) + interval ≤ now :=
    fun a ha hgen interval hinterval =>
      (hrests.announces (fun ⟨job, hjob, hgen⟩ => hnone job hjob hgen) a ha hgen interval
        hinterval).le hclock hdue hread
  have hmem {job : DiscoveryJob}
      (hjob : some job ∈ w.discoveryJobs.set slot (some (discoveryJob w.mt))) :
      some job ∈ w.discoveryJobs ∨ job = discoveryJob w.mt :=
    (List.mem_or_eq_of_mem_set hjob).imp_right Option.some.inj
  refine ⟨⟨fun {i j job job'} hi hj hgen => ?_, fun job hjob => ?_, fun job hjob hdone => ?_, ?_,
    h.spaced⟩, ?_⟩
  · -- The other jobs have other generations.
    have hother {i : ℕ} {job : DiscoveryJob} (hne : slot ≠ i)
        (hi : (w.discoveryJobs.set slot (some (discoveryJob w.mt)))[i]? = some (some job)) :
        w.discoveryJobs[i]? = some (some job) ∧ job.result.generation ≠ w.mt.generation := by
      rw [List.getElem?_set_ne hne] at hi
      exact ⟨hi, hnone job (List.mem_of_getElem? hi)⟩
    have hself {job : DiscoveryJob}
        (hi : (w.discoveryJobs.set slot (some (discoveryJob w.mt)))[slot]? = some (some job)) :
        job.result.generation = w.mt.generation := by
      rw [List.getElem?_set_self'] at hi
      obtain ⟨_, -, hjob⟩ := Option.map_eq_some_iff.1 hi
      rw [← Option.some.inj hjob]
      rfl
    by_cases hi' : slot = i
    · subst hi'
      by_contra hne
      exact (hother hne hj).2 (hgen ▸ hself hi)
    · by_cases hj' : slot = j
      · subst hj'
        exact absurd (hgen.trans (hself hj)) (hother hi' hi).2
      · exact h.unique (hother hi' hi).1 (hother hj' hj).1 hgen
  · rcases hmem hjob with hold | rfl
    · obtain ⟨passed, hpassed⟩ := h.jobs job hold
      refine ⟨passed, hpassed.urls, fun a ha hgen interval hinterval => ?_⟩
      exact (hpassed.announces a ha hgen interval hinterval).imp_left fun helapsed =>
        helapsed.mono fun _ => read_next
    · refine ⟨[], rfl, fun a ha hgen interval hinterval => .inl ⟨now, read_next hread.read, ?_⟩⟩
      exact hover a ha hgen interval hinterval
  · rcases hmem hjob with hold | rfl
    · exact h.finished job hold hdone
    · cases hdone
  · exact fun a ha => ⟨(h.times a ha).1, read_next (h.times a ha).2⟩
  · have hwaited : ∀ newer older time,
        RoundLog.started now :: w.mt.rounds = newer ++ .collected time true :: older →
          time + retryDelay (failedInRow older + 1) ≤ now := by
      rintro (_ | ⟨entry, newer⟩) older time hlog
      · cases (List.cons.inj hlog).1
      · have hwait := (hrests.rounds newer older time (List.cons.inj hlog).2).le hclock hdue hread
        omega
    refine ⟨fun _ a ha hgen interval hinterval => .inl ?_, hrests.failures,
      fun newer older time hlog => .inl ?_, fun _ newer older time hlog => ?_,
      hrests.spaced.started fun mid older time hlog => hwaited (.started now :: mid) older time ?_⟩
    · exact (hover a ha hgen interval hinterval).trans (Int.ofNat_le.2 hle)
    · exact_mod_cast (hwaited newer older time hlog).trans hle
    · exact (hwaited newer older time hlog).trans hle
    · rw [hlog]
      rfl

theorem Work.Step.announced (hstep : Step w w') (hclock : w.ClockMonotone) (h : w.Announced)
    (hrests : w.mt.Rests w.toWorld) : w'.Announced ∧ w'.mt.Rests w'.toWorld := by
  have hlocal := hstep.local
  rcases hstep.announcing_or with ⟨hsame, hjobs⟩ | ⟨slot, now, -, hnone, hdue, hread, rfl⟩
  · refine ⟨h.mono hlocal.world hjobs, ?_⟩
    exact hrests.of_eq hlocal.world.announces (by rw [World.Outstanding, hjobs]; rfl) hsame
      hlocal.generation
  · exact announced_launchDiscovery hclock hnone hdue hread h hrests

theorem Work.Steps.announced (hsteps : Steps w w') (hclock : w.ClockMonotone) (h : w.Announced)
    (hrests : w.mt.Rests w.toWorld) : w'.Announced ∧ w'.mt.Rests w'.toWorld := by
  induction hsteps with
  | refl => exact ⟨h, hrests⟩
  | tail hfirst hstep ih =>
    refine hstep.announced ?_ ih.1 ih.2
    rw [World.ClockMonotone, (Steps.local hfirst).world.env]
    exact hclock

/-! ## Collection -/

/-- What a round that brought peers, or one that failed, leaves of the rounds of its torrent. -/
theorem announcing_applyDiscovery (result : ManagedTorrent) (w : Work) :
    result.errorType = .none ∧ (applyDiscovery result w).mt.announcing =
        ⟨w.outcome.time, result.trackerInterval, 0, .collected w.outcome.time false :: w.mt.rounds⟩ ∨
      result.errorType ≠ .none ∧ ∃ failures,
        failures = (if w.mt.trackerFailures < 5 then w.mt.trackerFailures + 1
          else w.mt.trackerFailures) ∧
        (applyDiscovery result w).mt.announcing =
          ⟨w.outcome.time, max result.trackerInterval (retryDelay failures), failures,
            .collected w.outcome.time true :: w.mt.rounds⟩ := by
  have hadopt (mt : ManagedTorrent) (entry : RoundLog) :
      ((adoptTrackerError result mt).logRound entry).announcing = (mt.logRound entry).announcing := by
    rw [adoptTrackerError]
    split
    · rfl
    · rfl
  rw [applyDiscovery]
  dsimp only
  rw [ManagedTorrent.discovered, hadopt, countTrackerFailure]
  by_cases herror : result.errorType = .none
  · rw [if_pos herror, decide_eq_false (not_not.2 herror)]
    exact .inl ⟨herror, rfl⟩
  · rw [if_neg herror, decide_eq_true herror]
    exact .inr ⟨herror, _, rfl, rfl⟩

/-- A job that ends makes its torrent wait for its announces. -/
theorem rests_applyDiscovery (hclock : w.ClockMonotone) (hpos : 0 < w.outcome.time)
    (htimed : w.mt.Timed w.toWorld) (hslot : w.discoveryJobs[slot]? = some (some job))
    (hjob : job.result.generation = w.mt.generation) (h : w.Announced)
    (hrests : w.mt.Rests w.toWorld) : (applyDiscovery job.result w).mt.Rests
      { (applyDiscovery job.result w).toWorld with
        discoveryJobs := w.discoveryJobs.set slot none } := by
  have hmem := List.mem_of_getElem? hslot
  obtain ⟨passed, hpassed⟩ := h.jobs job hmem
  have hgeneration := (local_applyDiscovery job.result w).generation
  -- The round that ends has waited for the rounds before it.
  have hbefore : w.mt.lastAnnounceTime ≤ w.outcome.time := by
    rcases htimed with hzero | hread
    · rw [hzero]
      exact Nat.zero_le _
    · exact le_time_of_read hclock hread
  have hwaited : ∀ newer older time, w.mt.rounds = newer ++ .collected time true :: older →
      time + retryDelay (failedInRow older + 1) ≤ w.outcome.time :=
    fun newer older time hlog => (hrests.waited ⟨job, hmem, hjob⟩ newer older time hlog).trans hbefore
  have hnone : ¬World.Outstanding { (applyDiscovery job.result w).toWorld with
      discoveryJobs := w.discoveryJobs.set slot none } w.mt.generation := by
    rintro ⟨job', hjob', hgen⟩
    obtain ⟨j, hj⟩ := List.mem_iff_getElem?.1 hjob'
    dsimp only at hj
    by_cases hne : slot = j
    · subst hne
      rw [List.getElem?_set_self'] at hj
      obtain ⟨_, -, heq⟩ := Option.map_eq_some_iff.1 hj
      cases heq
    · rw [List.getElem?_set_ne hne] at hj
      exact hne (h.unique hslot hj (hjob.trans hgen.symm))
  have hwaits {mt' : ManagedTorrent} (hlast : mt'.lastAnnounceTime = w.outcome.time)
      (hinterval : job.result.trackerInterval ≤ mt'.trackerInterval) :
      ∀ a ∈ w.announces, a.generation = w.mt.generation → ∀ interval, a.interval = some interval →
        mt'.Waits a.time interval := by
    intro a ha hgen interval hint
    obtain ⟨htime, hread⟩ := h.times a ha
    rw [ManagedTorrent.Waits, hlast]
    rcases hpassed.announces a ha (hgen.trans hjob.symm) interval hint with
      ⟨now, hnow, hle⟩ | ⟨hle, -⟩
    · have hnow' := le_time_of_read hclock hnow
      exact .inl (by omega)
    · exact .inr ⟨htime, le_time_of_read hclock hread, hle.trans hinterval⟩
  rcases announcing_applyDiscovery job.result w with ⟨-, heq⟩ | ⟨-, failures, hfailures, heq⟩
  · obtain ⟨hlast, hinterval, hfailures, hrounds⟩ := Announcing.mk.inj heq
    refine ⟨fun _ a ha hgen => hwaits hlast hinterval.ge a ha (hgen.trans hgeneration), ?_,
      fun newer older time hlog => ?_, fun hout => ?_, ?_⟩
    · rw [hfailures, hrounds]
      rfl
    · rw [hrounds] at hlog
      rcases newer with _ | ⟨entry, newer⟩
      · cases (List.cons.inj hlog).1
      · refine .inl ?_
        rw [hlast]
        exact_mod_cast hwaited newer older time (List.cons.inj hlog).2
    · rw [hgeneration] at hout
      exact absurd hout hnone
    · rw [hrounds]
      exact hrests.spaced.collected _ _
  · obtain ⟨hlast, hinterval, hcount, hrounds⟩ := Announcing.mk.inj heq
    have hmin : failures = min 5 (failedInRow w.mt.rounds + 1) := by
      rw [hfailures, hrests.failures]
      split
      · omega
      · omega
    refine ⟨fun _ a ha hgen => hwaits hlast ((le_max_left _ _).trans hinterval.ge) a ha
        (hgen.trans hgeneration), ?_, fun newer older time hlog => ?_, fun hout => ?_, ?_⟩
    · rw [hcount, hrounds, hmin]
      rfl
    · rw [hrounds] at hlog
      rcases newer with _ | ⟨entry, newer⟩
      · obtain ⟨hentry, rfl⟩ := List.cons.inj hlog
        cases hentry
        refine .inr ⟨hpos, hlast.ge, ?_⟩
        rw [hinterval, hmin, retryDelay_min]
        exact le_max_right _ _
      · refine .inl ?_
        rw [hlast]
        exact_mod_cast hwaited newer older time (List.cons.inj hlog).2
    · rw [hgeneration] at hout
      exact absurd hout hnone
    · rw [hrounds]
      exact hrests.spaced.collected _ _

/-! ## Workers -/

/-- A job that goes on is still outstanding. -/
theorem exists_of_getElem?_set {i : ℕ} {entry : Option DiscoveryJob}
    (hslot : world.discoveryJobs[slot]? = some (some job))
    (hentry : ∀ job', entry = some job' → job'.result.generation = job.result.generation)
    (hi : (world.discoveryJobs.set slot entry)[i]? = some (some job')) :
    ∃ old, world.discoveryJobs[i]? = some (some old) ∧
      old.result.generation = job'.result.generation := by
  by_cases hne : slot = i
  · subst hne
    rw [List.getElem?_set_self'] at hi
    obtain ⟨_, -, heq⟩ := Option.map_eq_some_iff.1 hi
    exact ⟨job, hslot, (hentry job' heq).symm⟩
  · rw [List.getElem?_set_ne hne] at hi
    exact ⟨job', hi, rfl⟩

theorem outstanding_set (generation : ℕ) (hslot : world.discoveryJobs[slot]? = some (some job))
    (hgen : job'.result.generation = job.result.generation) :
    { world with discoveryJobs := world.discoveryJobs.set slot (some job') }.Outstanding generation ↔
      world.Outstanding generation := by
  refine ⟨fun ⟨job₁, hjob₁, hgen₁⟩ => ?_, fun ⟨job₁, hjob₁, hgen₁⟩ => ?_⟩
  · obtain ⟨i, hi⟩ := List.mem_iff_getElem?.1 hjob₁
    obtain ⟨old, hold, heq⟩ :=
      exists_of_getElem?_set hslot (fun _ h => Option.some.inj h ▸ hgen) hi
    exact ⟨old, List.mem_of_getElem? hold, heq.trans hgen₁⟩
  · obtain ⟨i, hi⟩ := List.mem_iff_getElem?.1 hjob₁
    by_cases hne : slot = i
    · subst hne
      rw [hslot] at hi
      obtain rfl := Option.some.inj (Option.some.inj hi)
      refine ⟨job', List.mem_of_getElem? (i := slot) ?_, hgen.trans hgen₁⟩
      exact List.getElem?_set_self (List.getElem?_eq_some_iff.1 hslot).1
    · refine ⟨job₁, List.mem_of_getElem? (i := i) ?_, hgen₁⟩
      exact (List.getElem?_set_ne hne).trans hi

theorem outstanding_erase {generation : ℕ} (hslot : world.discoveryJobs[slot]? = some (some job))
    (hne : job.result.generation ≠ generation) :
    { world with discoveryJobs := world.discoveryJobs.set slot none }.Outstanding generation ↔
      world.Outstanding generation := by
  refine ⟨fun ⟨job₁, hjob₁, hgen₁⟩ => ?_, fun ⟨job₁, hjob₁, hgen₁⟩ => ?_⟩
  · obtain ⟨i, hi⟩ := List.mem_iff_getElem?.1 hjob₁
    obtain ⟨old, hold, heq⟩ := exists_of_getElem?_set hslot (fun _ (h : none = some _) => nomatch h) hi
    exact ⟨old, List.mem_of_getElem? hold, heq.trans hgen₁⟩
  · obtain ⟨i, hi⟩ := List.mem_iff_getElem?.1 hjob₁
    refine ⟨job₁, List.mem_of_getElem? (i := i) ?_, hgen₁⟩
    refine (List.getElem?_set_ne fun heq => hne ?_).trans hi
    rw [← heq, hslot] at hi
    rw [Option.some.inj (Option.some.inj hi), hgen₁]

namespace World.Announced

/-- A job goes on without an announce. -/
theorem set (h : world.Announced) (hslot : world.discoveryJobs[slot]? = some (some job))
    (hgen : job'.result.generation = job.result.generation)
    (hasking : ∀ passed, job.Asking world passed → ∃ passed', job'.Asking world passed')
    (hfinished : job'.done →
      job'.urls = [] ∧ (job'.result.errorType = .none ↔ 0 < job'.peersReported)) :
    { world with discoveryJobs := world.discoveryJobs.set slot (some job') }.Announced where
  unique hi hj hgen' := by
    obtain ⟨old, hold, heq⟩ := exists_of_getElem?_set hslot (fun _ h => Option.some.inj h ▸ hgen) hi
    obtain ⟨old', hold', heq'⟩ :=
      exists_of_getElem?_set hslot (fun _ h => Option.some.inj h ▸ hgen) hj
    exact h.unique hold hold' (heq.trans (hgen'.trans heq'.symm))
  jobs job₁ hjob₁ := by
    rcases List.mem_or_eq_of_mem_set hjob₁ with hmem | heq
    · obtain ⟨passed, hpassed⟩ := h.jobs job₁ hmem
      exact ⟨passed, hpassed.urls, hpassed.announces⟩
    · obtain rfl := Option.some.inj heq
      obtain ⟨passed, hpassed⟩ := h.jobs job (List.mem_of_getElem? hslot)
      obtain ⟨passed', hpassed'⟩ := hasking passed hpassed
      exact ⟨passed', hpassed'.urls, hpassed'.announces⟩
  finished job₁ hjob₁ := by
    rcases List.mem_or_eq_of_mem_set hjob₁ with hmem | heq
    · exact h.finished job₁ hmem
    · obtain rfl := Option.some.inj heq
      exact hfinished
  times := h.times
  spaced := h.spaced

/-- A job ends. -/
theorem erase (h : world.Announced) (hslot : world.discoveryJobs[slot]? = some (some job)) :
    { world with discoveryJobs := world.discoveryJobs.set slot none }.Announced where
  unique hi hj hgen' := by
    obtain ⟨old, hold, heq⟩ := exists_of_getElem?_set hslot (fun _ (h : none = some _) => nomatch h) hi
    obtain ⟨old', hold', heq'⟩ := exists_of_getElem?_set hslot (fun _ (h : none = some _) => nomatch h) hj
    exact h.unique hold hold' (heq.trans (hgen'.trans heq'.symm))
  jobs job₁ hjob₁ := by
    rcases List.mem_or_eq_of_mem_set hjob₁ with hmem | heq
    · obtain ⟨passed, hpassed⟩ := h.jobs job₁ hmem
      exact ⟨passed, hpassed.urls, hpassed.announces⟩
    · cases heq
  finished job₁ hjob₁ := by
    rcases List.mem_or_eq_of_mem_set hjob₁ with hmem | heq
    · exact h.finished job₁ hmem
    · cases heq
  times := h.times
  spaced := h.spaced

end World.Announced

theorem asks_eq (job : DiscoveryJob) (primary : Bool) (url : Bytes) :
    job.asks primary url = job.result.torrent.asks (primary, url) := rfl

/-- What a tracker answers makes the job wait for it. -/
theorem le_trackerInterval_answered (job : DiscoveryJob) (response : Option TrackerResponse) :
    job.result.trackerInterval ≤ (job.answered response).result.trackerInterval ∧
      ∀ interval, (response.bind fun r => if r.failure then none else some r.interval) =
        some interval → interval ≤ (job.answered response).result.trackerInterval := by
  cases response with
  | none => exact ⟨le_rfl, by simp⟩
  | some r =>
    rw [DiscoveryJob.answered]
    dsimp only [Option.bind_some]
    split
    case isTrue => exact ⟨le_rfl, by simp⟩
    case isFalse =>
      refine ⟨le_max_left _ _, fun interval h => ?_⟩
      rw [← Option.some.inj h]
      exact le_max_right _ _

theorem torrent_answered (job : DiscoveryJob) (response : Option TrackerResponse) :
    (job.answered response).result.torrent = job.result.torrent ∧
      (job.answered response).done = job.done := by
  cases response with
  | none => exact ⟨rfl, rfl⟩
  | some r =>
    rw [DiscoveryJob.answered]
    dsimp only
    split
    · exact ⟨rfl, rfl⟩
    · exact ⟨rfl, rfl⟩

/-- An announce is sent. -/
theorem announced_announce {primary : Bool} {url : Bytes} {urls : List (Bool × Bytes)}
    (response : Option TrackerResponse) (hclock : world.ClockMonotone)
    (hpos : 0 < (world.env world.queries).time) (h : world.Announced)
    (hslot : world.discoveryJobs[slot]? = some (some job))
    (hurls : job.urls = (primary, url) :: urls) (hasks : job.asks primary url = true) :
    { world with
      queries := world.queries + 1
      discoveryJobs := world.discoveryJobs.set slot (some { job.answered response with urls := urls })
      announces := ⟨job.result.generation, job.result.torrent, url, (world.env world.queries).time,
        response.bind fun r => if r.failure then none else some r.interval⟩ ::
          world.announces }.Announced := by
  have hmem := List.mem_of_getElem? hslot
  have hgen := generation_answered job response
  have hentry : ∀ job', some { job.answered response with urls := urls } = some job' →
      job'.result.generation = job.result.generation := fun _ h => Option.some.inj h ▸ hgen
  obtain ⟨htorrent, hdone⟩ := torrent_answered job response
  obtain ⟨hle, hnew⟩ := le_trackerInterval_answered job response
  obtain ⟨passed, hpassed⟩ := h.jobs job hmem
  have hread (time : ℕ) (ht : world.Read time) : time ≤ (world.env world.queries).time := by
    obtain ⟨k, hk, rfl⟩ := ht
    exact hclock hk.le
  have hnext (time : ℕ) (ht : world.Read time) :
      World.Read { world with queries := world.queries + 1 } time := by
    obtain ⟨k, hk, htime⟩ := ht
    exact ⟨k, Nat.lt_succ_of_lt hk, htime⟩
  have hasked : job.result.torrent.asked (passed ++ [(primary, url)]) =
      job.result.torrent.asked passed ++ [url] := by
    rw [Torrent.asked, List.filter_append, List.map_append,
      List.filter_cons_of_pos (asks_eq job primary url ▸ hasks)]
    rfl
  refine ⟨fun hi hj hgen' => ?_, fun job₁ hjob₁ => ?_, fun job₁ hjob₁ => ?_, fun a ha => ?_,
    List.pairwise_cons.2 ⟨fun a ha hgen' hurl honce interval hinterval => ?_, h.spaced⟩⟩
  · obtain ⟨old, hold, heq⟩ := exists_of_getElem?_set hslot hentry hi
    obtain ⟨old', hold', heq'⟩ := exists_of_getElem?_set hslot hentry hj
    exact h.unique hold hold' (heq.trans (hgen'.trans heq'.symm))
  · obtain ⟨i, hi⟩ := List.mem_iff_getElem?.1 hjob₁
    by_cases hne : slot = i
    · subst hne
      rw [List.getElem?_set_self'] at hi
      obtain ⟨_, -, heq⟩ := Option.map_eq_some_iff.1 hi
      obtain rfl := Option.some.inj heq
      refine ⟨passed ++ [(primary, url)], ?_, fun a ha hgen' interval hinterval => ?_⟩
      · dsimp only
        rw [htorrent, hpassed.urls, hurls, List.append_assoc]
        rfl
      · dsimp only
        rw [htorrent, hasked]
        rcases List.mem_cons.1 ha with rfl | ha
        · exact .inr ⟨hnew interval hinterval, List.mem_append_right _ (List.mem_singleton_self _)⟩
        · rcases hpassed.announces a ha (hgen'.trans hgen) interval hinterval with
            helapsed | ⟨hold, hurl⟩
          · exact .inl (helapsed.mono hnext)
          · exact .inr ⟨hold.trans hle, List.mem_append_left _ hurl⟩
    · have hi' : world.discoveryJobs[i]? = some (some job₁) := (List.getElem?_set_ne hne).symm.trans hi
      obtain ⟨passed₁, hpassed₁⟩ := h.jobs job₁ (List.mem_of_getElem? hi')
      refine ⟨passed₁, hpassed₁.urls, fun a ha hgen' interval hinterval => ?_⟩
      rcases List.mem_cons.1 ha with rfl | ha
      · exact absurd (h.unique hslot hi' hgen') hne
      · exact (hpassed₁.announces a ha hgen' interval hinterval).imp_left fun helapsed =>
          helapsed.mono hnext
  · rcases List.mem_or_eq_of_mem_set hjob₁ with hold | heq
    · exact h.finished job₁ hold
    · obtain rfl := Option.some.inj heq
      intro hdone'
      have hnil := (h.finished job hmem (hdone ▸ hdone')).1
      rw [hurls] at hnil
      cases hnil
  · rcases List.mem_cons.1 ha with rfl | ha
    · exact ⟨hpos, world.queries, Nat.lt_succ_self _, rfl⟩
    · exact ⟨(h.times a ha).1, hnext _ (h.times a ha).2⟩
  · rcases hpassed.announces a ha hgen' interval hinterval with ⟨now, hnow, hle'⟩ | ⟨-, hmem'⟩
    · have hnow' := hread now hnow
      dsimp only
      omega
    · -- The URL was asked before in this round.
      rw [Torrent.AsksOnce] at honce
      dsimp only at honce hurl
      rw [hpassed.urls, hurls, List.append_cons, Torrent.asked, List.filter_append, List.map_append,
        ← Torrent.asked, hasked] at honce
      have hnodup := (List.nodup_append.1 honce).1
      exact absurd rfl ((List.nodup_append.1 hnodup).2.2 _ hmem' _ (hurl ▸ List.mem_singleton_self _))

/-! ## Moves -/

theorem asking_finished (h : job.Asking world passed) : job.finished.Asking world passed := by
  rw [DiscoveryJob.finished]
  split
  · exact ⟨h.urls, h.announces⟩
  · exact ⟨h.urls, h.announces⟩

theorem finished_finished (h : job.urls = []) : job.finished.done → job.finished.urls = [] ∧
    (job.finished.result.errorType = .none ↔ 0 < job.finished.peersReported) := by
  intro _
  rw [DiscoveryJob.finished]
  split
  case isTrue hpos => exact ⟨h, iff_of_true rfl hpos⟩
  case isFalse hzero => exact ⟨h, iff_of_false TorrentError.noConfusion hzero⟩

/-- The worker passes by a tracker. -/
theorem asking_skip {primary : Bool} {url : Bytes} {urls : List (Bool × Bytes)}
    (h : job.Asking world passed) (hurls : job.urls = (primary, url) :: urls) :
    DiscoveryJob.Asking world { job.skip url with urls := urls } (passed ++ [(primary, url)]) := by
  refine ⟨?_, fun a ha hgen interval hinterval => ?_⟩
  · refine h.urls.trans ?_
    rw [hurls, List.append_cons]
  · refine (h.announces a ha hgen interval hinterval).imp_right fun ⟨hle, hmem⟩ => ⟨hle, ?_⟩
    change a.url ∈ job.result.torrent.asked (passed ++ [(primary, url)])
    rw [Torrent.asked, List.filter_append, List.map_append]
    exact List.mem_append_left _ hmem

variable {torrents : List ManagedTorrent}

theorem World.Turn.announced (hturn : World.Turn torrents world world')
    (hclock : world.ClockMonotone) (hpos : ∀ k, 0 < (world.env k).time) (h : world.Announced) :
    world'.Announced := by
  cases hturn with
  | query => exact h.mono (World.Moved.extends ⟨rfl, Nat.le_succ _⟩) rfl
  | webSeedDone | connectDone | dropConnection | dropWebSeed =>
    exact h.mono { World.Extends.refl world with } rfl
  | @skip slot job primary url urls hslot hurls =>
    refine h.set hslot rfl (fun passed hpassed => ⟨_, asking_skip hpassed hurls⟩)
      fun hdone => ?_
    have hnil := (h.finished job (List.mem_of_getElem? hslot) hdone).1
    rw [hurls] at hnil
    cases hnil
  | announce response hslot hurls hasks =>
    exact announced_announce response hclock (hpos _) h hslot hurls hasks
  | @discoveryDone slot job hslot hdone hurls =>
    exact h.set hslot (generation_finished job) (fun passed hpassed => ⟨_, asking_finished hpassed⟩)
      (finished_finished hurls)
  | @dropCandidates slot job hslot =>
    exact h.set hslot rfl (fun passed hpassed => ⟨passed, hpassed.urls, hpassed.announces⟩)
      (h.finished job (List.mem_of_getElem? hslot))
  | dropDiscovery hslot => exact h.erase hslot

theorem World.Turn.rests (hturn : World.Turn torrents world world') (hmt : mt ∈ torrents)
    (hstate : mt.state = .downloading) (h : mt.Rests world) : mt.Rests world' := by
  cases hturn with
  | query | webSeedDone | connectDone | dropConnection | dropWebSeed =>
    exact h.of_eq rfl Iff.rfl rfl rfl
  | @skip slot job primary url urls hslot =>
    exact h.of_eq rfl (outstanding_set _ hslot rfl) rfl rfl
  | @discoveryDone slot job hslot =>
    exact h.of_eq rfl (outstanding_set _ hslot (generation_finished job)) rfl rfl
  | dropCandidates hslot => exact h.of_eq rfl (outstanding_set _ hslot rfl) rfl rfl
  | @dropDiscovery slot job hslot hdone hdead =>
    exact h.of_eq rfl (outstanding_erase hslot fun hgen => hdead mt hmt hgen.symm hstate) rfl rfl
  | @announce slot job primary url urls response hslot =>
    have hgeneration : ({ job.answered response with urls := urls } : DiscoveryJob).result.generation =
        job.result.generation := generation_answered job response
    have hout := outstanding_set mt.generation hslot hgeneration
    refine ⟨fun hnone a ha hgen interval hinterval => ?_, h.failures, h.rounds, ?_, h.spaced⟩
    · have hnone' : ¬world.Outstanding mt.generation := fun hold => hnone (hout.2 hold)
      rcases List.mem_cons.1 ha with rfl | ha
      · exact absurd ⟨job, List.mem_of_getElem? hslot, hgen⟩ hnone'
      · exact h.announces hnone' a ha hgen interval hinterval
    · exact fun hold => h.waited (hout.1 hold)

/-- A torrent that begins to download has no rounds to wait for. -/
theorem ManagedTorrent.Fresh.rests (h : mt.Fresh) (hnone : world.NoJobs mt.generation) :
    mt.Rests world where
  announces _ a ha hgen := absurd hgen (hnone.announces a ha)
  failures := by
    rw [h.trackerFailures, h.rounds]
    rfl
  rounds newer older time hlog := by
    rw [h.rounds] at hlog
    exact absurd hlog.symm (List.append_ne_nil_of_right_ne_nil _ (List.cons_ne_nil _ _))
  waited _ newer older time hlog := by
    rw [h.rounds] at hlog
    exact absurd hlog.symm (List.append_ne_nil_of_right_ne_nil _ (List.cons_ne_nil _ _))
  spaced newer mid older time now hlog := by
    rw [h.rounds] at hlog
    exact absurd hlog.symm (List.append_ne_nil_of_right_ne_nil _ (List.cons_ne_nil _ _))

/-- The rounds of a torrent are spaced, and while it downloads it waits for the next one. -/
structure ManagedTorrent.Patient (world : World) (mt : ManagedTorrent) : Prop where
  rests : mt.state = .downloading → mt.Rests world
  spaced : SpacedRounds mt.rounds

/-- A torrent that downloads waits for the next round. -/
theorem ManagedTorrent.Rests.patient (h : mt.Rests world) : mt.Patient world := ⟨fun _ => h, h.spaced⟩

theorem Work.Op.announced (hop : Op w w') (hsound : w.Sound) (hclock : w.ClockMonotone)
    (hpos : ∀ k, 0 < (w.env k).time) (htimed : w.mt.Timed w.toWorld)
    (hfresh : ¬w.mt.Initialized → w.mt.Fresh) (h : w.Announced)
    (hpatient : w.mt.Patient w.toWorld) : w'.Announced ∧ w'.mt.Patient w'.toWorld := by
  have hextends := (hop.confined hsound).world
  cases hop with
  | tick hstate hsteps =>
    obtain ⟨hannounced, hrests⟩ := hsteps.announced hclock h (hpatient.rests hstate)
    exact ⟨hannounced, hrests.patient⟩
  | complete =>
    refine ⟨h.mono hextends ?_, fun hstate' => (nomatch hstate'), ?_⟩
    · obtain ⟨queries, bytes, releases, peers, candidates, log, active, pm, -, -, heq⟩ :=
        disconnectPeers_eq w
      rw [completeTorrent, heq]
    · have hrounds : (completeTorrent w).mt.rounds = w.mt.rounds :=
        congrArg Announcing.rounds (announcing_disconnectPeers w)
      rw [hrounds]
      exact hpatient.spaced
  | start =>
    rcases startTorrent_cases w with ⟨heq, -⟩ | ⟨-, hopened⟩
    · rw [heq] at hextends ⊢
      exact ⟨h, fun hstate' => (hpatient.rests hstate').of_eq rfl Iff.rfl rfl rfl, hpatient.spaced⟩
    · have hjobs : (startTorrent w).2.discoveryJobs = w.discoveryJobs := by
        by_cases hinit : w.mt.Initialized
        · exact (((resetTorrent_moves w).1 hinit).trans hopened.unmoved).sameJobs.discoveryJobs
        · exact (((resetTorrent_moves w).2 hinit).trans hopened.unmoved).sameJobs.discoveryJobs
      refine ⟨h.mono hextends hjobs, ManagedTorrent.Rests.patient ?_⟩
      exact ((fresh_resetTorrent hfresh).opened hopened.torrent).rests
        (hopened.noJobs hsound.jobs hsound.idle)
  | stop =>
    have hrenewed := renewed_stopTorrent w
    refine ⟨h.mono hextends hrenewed.sameJobs.discoveryJobs, ManagedTorrent.Rests.patient ?_⟩
    exact (fresh_stopTorrent w).rests (hrenewed.noJobs hsound.jobs)
  | @candidates slot job hstate hslot hjob =>
    have hmem := List.mem_of_getElem? hslot
    have hgen : ({ job with queue := [] } : DiscoveryJob).result.generation =
        job.result.generation := rfl
    have hannounced := h.set hslot hgen
      (fun passed hpassed => ⟨passed, hpassed.urls, hpassed.announces⟩) (h.finished job hmem)
    refine ⟨hannounced.mono { World.Extends.refl _ with } rfl, ManagedTorrent.Rests.patient ?_⟩
    have hgeneration : (job.queue.foldl (fun mt addr => addCandidate addr mt) w.mt).generation =
        w.mt.generation := by rw [sameTransfer_addCandidates job.queue w.mt]
    exact (hpatient.rests hstate).of_eq rfl (outstanding_set _ hslot rfl)
      (announcing_addCandidates job.queue w.mt) hgeneration
  | @discovery slot job hstate hslot hjob =>
    have hnext : w.next.Announced := h.mono (World.Moved.extends ⟨rfl, Nat.le_succ _⟩) rfl
    have herased := hnext.erase hslot
    refine ⟨herased.mono { World.Extends.refl _ with } rfl, ManagedTorrent.Rests.patient ?_⟩
    exact rests_applyDiscovery hclock (hpos _) htimed hslot hjob h (hpatient.rests hstate)
  | @connection slot job hstate =>
    refine ⟨h.mono hextends ?_, ManagedTorrent.Rests.patient ?_⟩
    · obtain ⟨queries, mt, -, heq, -⟩ := applyConnection_eq job w
      rw [heq]
    · have hlocal := local_applyConnection job w
      have hjobs : (applyConnection job w).discoveryJobs = w.discoveryJobs := by
        obtain ⟨queries, mt, -, heq, -⟩ := applyConnection_eq job w
        rw [heq]
      exact (hpatient.rests hstate).of_eq hlocal.world.announces (by rw [World.Outstanding, hjobs]; rfl)
        (announcing_applyConnection job w) hlocal.generation
  | @webSeed slot job hstate hslot hjob =>
    obtain ⟨first, hcommit⟩ := committing_collect hsound hstate hslot hjob
    have hjobs : (applyWebSeed job w).discoveryJobs = w.discoveryJobs := by rw [hcommit.world.eq]
    refine ⟨h.mono hextends hjobs, ManagedTorrent.Rests.patient ?_⟩
    have hsame : (applyWebSeed job w).mt.announcing = w.mt.announcing := by
      rw [hcommit.torrent]
      rfl
    exact (hpatient.rests hstate).of_eq hextends.announces (by rw [World.Outstanding, hjobs]; rfl) hsame
      (hcommit.local hstate).generation

/-! ## Runs -/

theorem outstanding_others {generation other : ℕ} (hne : generation ≠ other)
    (heq : others (·.result.generation) other world'.discoveryJobs =
      others (·.result.generation) other world.discoveryJobs) :
    world'.Outstanding generation ↔ world.Outstanding generation := by
  have hmem (jobs : List (Option DiscoveryJob)) (job : DiscoveryJob)
      (hgen : job.result.generation = generation) :
      some job ∈ jobs ↔ some job ∈ others (·.result.generation) other jobs := by
    rw [mem_others]
    exact (and_iff_left (hgen ▸ hne)).symm
  refine exists_congr fun job => and_congr_left fun hgen => ?_
  have hcongr := hmem world'.discoveryJobs job hgen
  rw [heq] at hcongr
  exact hcongr.trans (hmem world.discoveryJobs job hgen).symm

variable {m m' : TorrentMgr}

theorem TorrentMgr.Move.announced (hmove : Move m m') (hsound : m.Sound) (hclock : m.ClockMonotone)
    (hpos : ∀ k, 0 < (m.env k).time)
    (hbefore : ∀ mt ∈ m.torrents, mt.Timed m.toWorld ∧ (¬mt.Initialized → mt.Fresh))
    (h : m.Announced) (hpatient : ∀ mt ∈ m.torrents, mt.Patient m.toWorld) :
    m'.Announced ∧ ∀ mt ∈ m'.torrents, mt.Patient m'.toWorld := by
  cases hmove with
  | @op i mt w hmt hop =>
    have hmem := List.mem_of_getElem? hmt
    have hconfined := hop.confined (hsound.torrents mt hmem)
    obtain ⟨hannounced, hown⟩ := hop.announced (hsound.torrents mt hmem) hclock hpos
      (hbefore mt hmem).1 (hbefore mt hmem).2 h (hpatient mt hmem)
    refine ⟨hannounced, fun mt' hmt' => ?_⟩
    obtain ⟨j, hj⟩ := List.mem_iff_getElem?.1 hmt'
    rw [List.getElem?_set] at hj
    split at hj
    case isTrue hij =>
      split at hj
      · exact Option.some.inj hj ▸ hown
      · cases hj
    case isFalse hij =>
      have hne := hsound.generation_ne hj hmt (Ne.symm hij)
      have hpatient' := hpatient mt' (List.mem_of_getElem? hj)
      exact ⟨fun hstate => (hpatient'.rests hstate).of_eq hconfined.world.announces
        (outstanding_others hne hconfined.discovery) rfl rfl, hpatient'.spaced⟩
  | turn hturn =>
    exact ⟨hturn.announced hclock hpos h, fun mt hmt =>
      ⟨fun hstate => hturn.rests hmt hstate ((hpatient mt hmt).rests hstate), (hpatient mt hmt).spaced⟩⟩
  | add hadded =>
    refine ⟨h.mono { World.Extends.refl _ with } rfl, fun mt' hmt' => ?_⟩
    rcases List.mem_append.1 hmt' with hmem | hmem
    · exact ⟨fun hstate => ((hpatient mt' hmem).rests hstate).of_eq rfl Iff.rfl rfl rfl,
        (hpatient mt' hmem).spaced⟩
    · rw [List.mem_singleton.1 hmem]
      obtain ⟨t, savePath, isMagnet, magnetUri, peerId, rfl, -⟩ := hadded
      refine ⟨fun hstate => (nomatch hstate), fun newer mid older time now hlog => ?_⟩
      exact absurd hlog.symm (List.append_ne_nil_of_right_ne_nil _ (List.cons_ne_nil _ _))
  | remove => exact ⟨h, fun mt' hmt' => hpatient mt' (List.mem_of_mem_eraseIdx hmt')⟩

theorem announced_of_reachable (hm : Reachable m) (hclock : m.ClockMonotone)
    (hpos : ∀ k, 0 < (m.env k).time) :
    m.Announced ∧ ∀ mt ∈ m.torrents, mt.Patient m.toWorld := by
  let P (m : TorrentMgr) : Prop :=
    ((∀ mt ∈ m.torrents, mt.Timed m.toWorld) ∧ ∀ mt ∈ m.torrents, ¬mt.Initialized → mt.Fresh) ∧
      (m.ClockMonotone → (∀ k, 0 < (m.env k).time) →
        m.Announced ∧ ∀ mt ∈ m.torrents, mt.Patient m.toWorld)
  have hP : P m := by
    refine hm.induction
      (fun sys strerror env => ⟨⟨fun mt hmt => (nomatch hmt), fun mt hmt => (nomatch hmt)⟩,
      fun _ _ => ⟨⟨fun hi => ?_, fun job hjob => ?_, fun job hjob => ?_, fun a ha => (nomatch ha), .nil⟩,
        fun mt hmt => (nomatch hmt)⟩⟩) fun {m m'} hsound hmove ⟨⟨htimed, hfresh⟩, ih⟩ => ?_
    · have hmem := List.mem_of_getElem? hi
      cases (List.mem_replicate.1 hmem).2
    · cases (List.mem_replicate.1 hjob).2
    · cases (List.mem_replicate.1 hjob).2
    · refine ⟨⟨invariant_timed.move hmove hsound htimed, invariant_fresh.move hmove hsound hfresh⟩,
        fun hclock hpos => ?_⟩
      rw [World.ClockMonotone, hmove.env hsound] at hclock
      rw [hmove.env hsound] at hpos
      obtain ⟨hannounced, hpatient⟩ := ih hclock hpos
      exact hmove.announced hsound hclock hpos (fun mt hmt => ⟨htimed mt hmt, hfresh mt hmt⟩)
        hannounced hpatient
  exact hP.2 hclock hpos

/-- At most one discovery of a torrent is outstanding; an announce comes after
    the interval that an announce before it to the same URL brought, if its round
    asks each URL once; a round starts after the delay of each failed round
    before it; and a round fails exactly if no tracker reported a peer. -/
theorem announces_of_reachable (hm : Reachable m) (hclock : m.ClockMonotone)
    (hpos : ∀ k, 0 < (m.env k).time) :
    (∀ (i j : ℕ) (job job' : DiscoveryJob), m.discoveryJobs[i]? = some (some job) →
      m.discoveryJobs[j]? = some (some job') →
        job.result.generation = job'.result.generation → i = j) ∧
    (∀ newer mid older b a interval, m.announces = newer ++ b :: (mid ++ a :: older) →
      a.generation = b.generation → a.url = b.url → b.torrent.AsksOnce →
        a.interval = some interval → (a.time : ℤ) + interval ≤ b.time) ∧
    (∀ mt ∈ m.torrents, ∀ newer mid older time now,
      mt.rounds = newer ++ .started now :: (mid ++ .collected time true :: older) →
        time + retryDelay (failedInRow older + 1) ≤ now) ∧
    ∀ job : DiscoveryJob, some job ∈ m.discoveryJobs → job.done →
      (job.result.errorType = .none ↔ 0 < job.peersReported) := by
  obtain ⟨hannounced, hpatient⟩ := announced_of_reachable hm hclock hpos
  refine ⟨fun i j job job' => hannounced.unique, ?_, fun mt hmt => (hpatient mt hmt).spaced,
    fun job hjob hdone => (hannounced.finished job hjob hdone).2⟩
  intro newer mid older b a interval hlog hgen hurl honce hinterval
  have hspaced := hannounced.spaced
  rw [hlog] at hspaced
  have hpair := List.pairwise_cons.1 (List.pairwise_append.1 hspaced).2.1
  exact hpair.1 a (List.mem_append_right _ List.mem_cons_self) hgen hurl honce interval hinterval

/-- The two newest entries of a log. -/
theorem eq_cons_cons_of_head? {α : Type} {log : List α} {b a : α} (hb : b ∈ log.head?)
    (ha : a ∈ log.tail.head?) : ∃ older, log = b :: a :: older := by
  obtain ⟨log', rfl⟩ := List.head?_eq_some_iff.1 hb
  obtain ⟨older, hlog'⟩ := List.head?_eq_some_iff.1 ha
  exact ⟨older, by rw [← hlog', List.tail_cons]⟩

/-- A clock that goes on by 40 seconds each time it is read. -/
def steadyEnv : ℕ → Outcome := fun k => ⟨40 * k + 1, true, .incomplete⟩

/-- A manager whose torrent has asked its tracker twice. -/
def askedTwiceMgr : TorrentMgr :=
  (TorrentMgr.init (sysWith []) (fun _ => []) steadyEnv).run
    [.addRaw trackedTorrent (lit "/d") [], .start 0, .tick, .announce 7 (some ⟨false, 60, []⟩),
      .discoveryDone 7, .tick, .tick, .announce 7 (some ⟨false, 60, []⟩)]

theorem announces_of_reachable_askedTwice : ∃ b ∈ askedTwiceMgr.announces,
    ∃ a ∈ askedTwiceMgr.announces,
      a.url = b.url ∧ a.interval = some 60 ∧ (a.time : ℤ) + 60 ≤ b.time := by
  have henv : askedTwiceMgr.env = steadyEnv := by rw [askedTwiceMgr, env_run]
  have hclock : askedTwiceMgr.ClockMonotone := by
    rw [World.ClockMonotone, henv]
    exact fun _ _ hle => Nat.succ_le_succ (Nat.mul_le_mul_left 40 hle)
  have hpos : ∀ k, 0 < (askedTwiceMgr.env k).time := by
    rw [henv]
    exact fun _ => Nat.succ_pos _
  have hreachable : Reachable askedTwiceMgr := ⟨_, _, _, _, rfl⟩
  have hspaced := (announces_of_reachable hreachable hclock hpos).2.1
  have hlog : ∃ b ∈ askedTwiceMgr.announces.head?, ∃ a ∈ askedTwiceMgr.announces.tail.head?,
      a.generation = b.generation ∧ a.url = b.url ∧ b.torrent.AsksOnce ∧ a.interval = some 60 := by
    decide +kernel
  obtain ⟨b, hb, a, ha, hgen, hurl, honce, hinterval⟩ := hlog
  obtain ⟨older, hannounces⟩ := eq_cons_cons_of_head? hb ha
  refine ⟨b, ?_, a, ?_, hurl, hinterval, hspaced [] [] older b a 60 hannounces hgen hurl honce hinterval⟩
  · simp [hannounces]
  · simp [hannounces]

/-! ### A URL that occurs twice -/

/-- A torrent whose announce list has a URL twice. -/
def repeatedTorrent : Bytes :=
  lit "d8:announce8:http://t13:announce-listll8:http://u8:http://uee4:infod6:lengthi3e4:name1:n12:piece lengthi2e6:pieces40:aaaaaaaaaaaaaaaaaaaabbbbbbbbbbbbbbbbbbbbee"

/-- A manager whose torrent has asked its trackers once. -/
def repeatedMgr : TorrentMgr :=
  (TorrentMgr.init (sysWith []) (fun _ => []) calmEnv).run
    [.addRaw repeatedTorrent (lit "/d") [], .start 0, .tick, .announce 7 (some ⟨false, 60, []⟩),
      .announce 7 (some ⟨false, 60, []⟩), .announce 7 (some ⟨false, 60, []⟩)]

/-- A URL that occurs twice in the announce list is asked twice at once. -/
theorem exists_repeatedMgr : Reachable repeatedMgr ∧ repeatedMgr.ClockMonotone ∧
    (∀ k, 0 < (repeatedMgr.env k).time) ∧
    ∃ newer mid older b a interval, repeatedMgr.announces = newer ++ b :: (mid ++ a :: older) ∧
      a.generation = b.generation ∧ a.url = b.url ∧ a.interval = some interval ∧
        (b.time : ℤ) < a.time + interval := by
  have henv : repeatedMgr.env = calmEnv := by rw [repeatedMgr, env_run]
  refine ⟨⟨_, _, _, _, rfl⟩, ?_, ?_, ?_⟩
  · rw [World.ClockMonotone, henv]
    exact fun _ _ _ => le_rfl
  · rw [henv]
    exact fun _ => Nat.one_pos
  · have hlog : ∃ b ∈ repeatedMgr.announces.head?, ∃ a ∈ repeatedMgr.announces.tail.head?,
        a.generation = b.generation ∧ a.url = b.url ∧ a.interval = some 60 ∧
          (b.time : ℤ) < a.time + 60 := by decide +kernel
    obtain ⟨b, hb, a, ha, hlate⟩ := hlog
    obtain ⟨older, hannounces⟩ := eq_cons_cons_of_head? hb ha
    exact ⟨[], [], older, b, a, 60, hannounces, hlate⟩

end PS5Torrent
