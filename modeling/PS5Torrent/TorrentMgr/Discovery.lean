import PS5Torrent.TorrentMgr.Move

/-!
# Tracker discovery, step by step

A tracker worker and the main thread share a discovery job: the worker puts
addresses into its queue under a mutex (`publish_candidates`) and at last sets
`done`; the main thread reads `done`, takes the addresses under the mutex, hands
them to the torrent and frees the job if it had read `done`
(`collect_discovery`). The manager of `Run` takes each of these as one step;
here the two threads are interleaved at every access to what they share.

Each address in the queue is taken exactly once and in order, and when the job
is freed none is left (`discovery_of_interleaving`).
-/

namespace PS5Torrent

/-! ## The two threads -/

inductive Thread
  | worker
  | main
  deriving DecidableEq

/-- Where the worker is: in the loop of `publish_candidates`, with the addresses
    still to publish and the mutex, or at a tracker, or at its end. -/
inductive WorkerAt
  | asking
  | publishing (peers : List PeerAddr)
  | returned

/-- Where the main thread is in `collect_discovery`: what it read of `done`, the
    live torrent it found, and the addresses it copied. -/
inductive MainAt
  | elsewhere
  | loaded (done : Bool)
  | found (done : Bool) (live : Option ℕ)
  | locked (done : Bool) (live : Option ℕ)
  | copied (done : Bool) (live : Option ℕ) (pending : List PeerAddr)
  | cleared (done : Bool) (live : Option ℕ) (pending : List PeerAddr)
  | adding (done : Bool) (live : Option ℕ) (pending : List PeerAddr)

/-- A discovery job with its worker, and the manager with its thread. -/
structure Discovery where
  result : ManagedTorrent
  queue : List PeerAddr
  done : Bool
  freed : Bool
  mutex : Option Thread
  worker : WorkerAt
  mgr : TorrentMgr
  main : MainAt
  /-- The addresses that were put into the queue. -/
  placed : List PeerAddr
  /-- The addresses that were taken, each with whether it was handed to
      `add_candidate`. -/
  taken : List (Bool × PeerAddr)

namespace Discovery

/-- A job with its worker at the start. -/
def start (result : ManagedTorrent) (mgr : TorrentMgr) : Discovery :=
  ⟨result, [], false, false, none, .asking, mgr, .elsewhere, [], []⟩

/-- The torrent of the job is downloading in the generation of the job. -/
def live (s : Discovery) : Option ℕ := s.mgr.live s.result.generation

/-- One step of the worker in `publish_candidates`: the next address, or the unlock. -/
def publish (s : Discovery) : List PeerAddr → Discovery
  | [] => { s with worker := .asking, mutex := none }
  | addr :: peers =>
    if s.queue.length < MAX_TRACKER_PEERS then
      if addr ∈ s.queue then { s with worker := .publishing peers }
      else
        { s with
          worker := .publishing peers
          queue := s.queue ++ [addr]
          placed := s.placed ++ [addr] }
    else { s with worker := .publishing [] }

/-- Work on the torrent that was found. -/
def onFound (live : Option ℕ) (f : Work → Work) (m : TorrentMgr) : TorrentMgr :=
  match live with
  | none => m
  | some i => m.onTorrent i f

/-- One step of the main thread in `collect_discovery`. It waits for the mutex. -/
def collect (s : Discovery) : Discovery :=
  match s.main with
  | .elsewhere => if s.freed then s else { s with main := .loaded s.done }
  | .loaded done => { s with main := .found done s.live }
  | .found done live =>
    if s.mutex.isSome then s else { s with main := .locked done live, mutex := some .main }
  | .locked done live => { s with main := .copied done live s.queue }
  | .copied done live pending => { s with main := .cleared done live pending, queue := [] }
  | .cleared done live pending => { s with main := .adding done live pending, mutex := none }
  | .adding done live (addr :: pending) =>
    { s with
      main := .adding done live pending
      mgr := onFound live (fun w => { w with mt := addCandidate addr w.mt }) s.mgr
      taken := s.taken ++ [(live.isSome, addr)] }
  | .adding false _ [] => { s with main := .elsewhere }
  | .adding true live [] =>
    { s with
      main := .elsewhere
      freed := true
      mgr := onFound live (applyDiscovery s.result) s.mgr }

/-- A choice of the schedule: which thread goes on, and how, where it is free to
    choose. Between two calls the worker reports to its copy of the torrent, and
    outside `collect_discovery` the main thread does anything. -/
inductive Action
  | callPublish (peers : List PeerAddr)
  | report (announces interval : ℤ) (error : TorrentError) (msg : Bytes)
  | setDone
  | publish
  | collect
  | other (mgr : TorrentMgr)

/-- A step. A thread that cannot take the step, or waits, does nothing. -/
def step (s : Discovery) : Action → Discovery
  | .callPublish peers =>
    match s.worker with
    | .asking =>
      if s.mutex.isSome then s
      else { s with worker := .publishing peers, mutex := some .worker }
    | _ => s
  | .report announces interval error msg =>
    match s.worker with
    | .asking =>
      { s with result := { s.result with
          trackerAnnounces := announces
          trackerInterval := interval
          errorType := error
          errorMsg := msg } }
    | _ => s
  | .setDone =>
    match s.worker with
    | .asking => { s with worker := .returned, done := true }
    | _ => s
  | .publish =>
    match s.worker with
    | .publishing peers => s.publish peers
    | _ => s
  | .collect => s.collect
  | .other mgr =>
    match s.main with
    | .elsewhere => { s with mgr }
    | _ => s

def run (actions : List Action) (s : Discovery) : Discovery := actions.foldl step s

/-! ## What holds at every interleaving -/

end Discovery

def WorkerAt.holds : WorkerAt → Bool
  | .publishing _ => true
  | _ => false

namespace MainAt

def holds : MainAt → Bool
  | .locked .. | .copied .. | .cleared .. => true
  | _ => false

/-- The `done` that was read. -/
def readDone : MainAt → Bool
  | .elsewhere => false
  | .loaded done | .found done _ | .locked done _ | .copied done .. | .cleared done ..
  | .adding done .. => done

/-- The live torrent that was found. -/
def target : MainAt → Option (Option ℕ)
  | .elsewhere | .loaded _ => none
  | .found _ live | .locked _ live | .copied _ live _ | .cleared _ live _ | .adding _ live _ =>
    some live

/-- The addresses that were taken out of the queue and not handed on yet. -/
def pending : MainAt → List PeerAddr
  | .cleared _ _ pending | .adding _ _ pending => pending
  | _ => []

/-- The queue was emptied since `done` was read. -/
def emptied : MainAt → Bool
  | .cleared .. | .adding .. => true
  | _ => false

end MainAt

namespace Discovery

structure Inv (s : Discovery) : Prop where
  nodup : s.queue.Nodup
  length : s.queue.length ≤ MAX_TRACKER_PEERS
  exclusive : ¬(s.worker.holds = true ∧ s.main.holds = true)
  mutex : s.mutex = if s.worker.holds then some .worker else if s.main.holds then some .main
    else none
  copied : ∀ done live pending, s.main = .copied done live pending → pending = s.queue
  /-- Every address that was put into the queue was taken, or is on the way, or
      is still in it. -/
  account : s.placed = s.taken.map Prod.snd ++ s.main.pending ++ s.queue
  done : s.done = true → s.worker = .returned
  read : s.main.readDone = true → s.done = true
  /-- After `done` nothing is put into a queue that was emptied. -/
  drained : s.main.readDone = true → s.main.emptied = true → s.queue = []
  freed : s.freed = true → s.done = true ∧ s.queue = [] ∧ s.main = .elsewhere

variable {s : Discovery}

theorem inv_start (result : ManagedTorrent) (mgr : TorrentMgr) : (start result mgr).Inv :=
  ⟨List.nodup_nil, Nat.zero_le _, fun h => (nomatch h.1), rfl, fun _ _ _ h => (nomatch h), rfl,
    fun h => (nomatch h), fun h => (nomatch h), fun _ h => (nomatch h), fun h => (nomatch h)⟩

/-- A worker that is publishing has not set `done`, and nobody else is at the queue. -/
theorem Inv.publishing {peers : List PeerAddr} (h : s.Inv) (hworker : s.worker = .publishing peers) :
    s.done = false ∧ s.main.readDone = false ∧ s.main.holds = false ∧ s.freed = false := by
  have hdone : s.done = false := by
    rw [← Bool.not_eq_true]
    intro hdone
    rw [h.done hdone] at hworker
    exact nomatch hworker
  refine ⟨hdone, ?_, ?_, ?_⟩
  · rw [← Bool.not_eq_true]
    intro hread
    exact Bool.false_ne_true (hdone.symm.trans (h.read hread))
  · rw [← Bool.not_eq_true]
    intro hmain
    exact h.exclusive ⟨by rw [hworker]; rfl, hmain⟩
  · rw [← Bool.not_eq_true]
    intro hfreed
    exact Bool.false_ne_true (hdone.symm.trans (h.freed hfreed).1)

theorem not_copied_of_holds {main : MainAt} (h : main.holds = false) (done : Bool) (live : Option ℕ)
    (pending : List PeerAddr) : main ≠ .copied done live pending := by
  rintro rfl
  exact nomatch h

theorem inv_publish {peers : List PeerAddr} (h : s.Inv) (hworker : s.worker = .publishing peers) :
    (s.publish peers).Inv := by
  obtain ⟨hdone, hread, hholds, hfreed⟩ := h.publishing hworker
  have hmutex : s.mutex = some .worker := by rw [h.mutex, hworker]; rfl
  rcases peers with _ | ⟨addr, peers⟩
  · exact { h with
      exclusive := fun h => (nomatch h.1)
      mutex := by rw [publish, hholds]; rfl
      done := fun hd => absurd (hdone.symm.trans hd) Bool.false_ne_true }
  rw [publish]
  split_ifs with hfull hmem
  · exact { h with
      exclusive := fun h' => absurd (hholds.symm.trans h'.2) Bool.false_ne_true
      mutex := hmutex
      done := fun hd => absurd (hdone.symm.trans hd) Bool.false_ne_true }
  · refine ⟨?_, ?_, ?_, hmutex, fun done live pending hmain => ?_, ?_, fun hd => ?_, h.read,
      fun hr => ?_, fun hf => ?_⟩
    · rw [List.nodup_append]
      exact ⟨h.nodup, List.nodup_singleton _, fun a ha b hb hab => hmem (by
        rw [← List.mem_singleton.1 hb, ← hab]; exact ha)⟩
    · rw [List.length_append]
      exact hfull
    · exact fun h' => absurd (hholds.symm.trans h'.2) Bool.false_ne_true
    · exact absurd hmain (not_copied_of_holds hholds _ _ _)
    · rw [h.account, List.append_assoc _ s.queue]
    · exact absurd (hdone.symm.trans hd) Bool.false_ne_true
    · exact absurd (hread.symm.trans hr) Bool.false_ne_true
    · exact absurd (hfreed.symm.trans hf) Bool.false_ne_true
  · exact { h with
      exclusive := fun h' => absurd (hholds.symm.trans h'.2) Bool.false_ne_true
      mutex := hmutex
      done := fun hd => absurd (hdone.symm.trans hd) Bool.false_ne_true }

/-- While the main thread is at the job, the job is not freed. -/
theorem Inv.not_freed {P : Prop} (h : s.Inv) (hmain : s.main ≠ .elsewhere) (hf : s.freed = true) : P :=
  absurd (h.freed hf).2.2 hmain

theorem inv_collect (h : s.Inv) : s.collect.Inv := by
  have hmutex := h.mutex
  have hexclusive := h.exclusive
  have hread := h.read
  have hdrained := h.drained
  have haccount := h.account
  rw [collect]
  cases hmain : s.main with
  | elsewhere =>
    dsimp only
    split_ifs with hfreed
    · exact h
    · rw [hmain] at hmutex hexclusive haccount
      exact { h with
        exclusive := hexclusive
        mutex := hmutex
        copied := fun _ _ _ h => (nomatch h)
        account := haccount
        read := id
        drained := fun _ h => (nomatch h)
        freed := fun hf => absurd hf hfreed }
  | loaded done =>
    rw [hmain] at hmutex hexclusive hread haccount
    exact { h with
      exclusive := hexclusive
      mutex := hmutex
      copied := fun _ _ _ h => (nomatch h)
      account := haccount
      read := hread
      drained := fun _ h => (nomatch h)
      freed := h.not_freed (by rw [hmain]; exact MainAt.noConfusion) }
  | found done live =>
    dsimp only
    split_ifs with hlock
    · exact h
    · have hworker : s.worker.holds = false := by
        rw [← Bool.not_eq_true]
        intro hholds
        rw [hmutex, hholds] at hlock
        exact hlock rfl
      rw [hmain] at hread haccount
      exact { h with
        exclusive := fun h => absurd (hworker.symm.trans h.1) Bool.false_ne_true
        mutex := by rw [hworker]; rfl
        copied := fun _ _ _ h => (nomatch h)
        account := haccount
        read := hread
        drained := fun _ h => (nomatch h)
        freed := h.not_freed (by rw [hmain]; exact MainAt.noConfusion) }
  | locked done live =>
    rw [hmain] at hmutex hexclusive hread haccount
    exact { h with
      exclusive := hexclusive
      mutex := hmutex
      copied := fun _ _ _ h => by injection h with _ _ h; exact h.symm
      account := haccount
      read := hread
      drained := fun _ h => (nomatch h)
      freed := h.not_freed (by rw [hmain]; exact MainAt.noConfusion) }
  | copied done live pending =>
    have hqueue := h.copied _ _ _ hmain
    rw [hmain] at hmutex hexclusive hread haccount
    exact { h with
      nodup := List.nodup_nil
      length := Nat.zero_le _
      exclusive := hexclusive
      mutex := hmutex
      copied := fun _ _ _ h => (nomatch h)
      account := by
        rw [haccount, hqueue]
        simp only [MainAt.pending, List.append_nil]
      read := hread
      drained := fun _ _ => rfl
      freed := h.not_freed (by rw [hmain]; exact MainAt.noConfusion) }
  | cleared done live pending =>
    rw [hmain] at hmutex hexclusive hread haccount hdrained
    have hworker : s.worker.holds = false := by
      rw [← Bool.not_eq_true]
      exact fun hholds => hexclusive ⟨hholds, rfl⟩
    exact { h with
      exclusive := fun h => (nomatch h.2)
      mutex := by rw [hworker]; rfl
      copied := fun _ _ _ h => (nomatch h)
      account := haccount
      read := hread
      drained := hdrained
      freed := h.not_freed (by rw [hmain]; exact MainAt.noConfusion) }
  | adding done live pending =>
    have hfreed := h.not_freed (P := s.done = true ∧ s.queue = [] ∧ s.main = .elsewhere)
      (by rw [hmain]; exact MainAt.noConfusion)
    rw [hmain] at hmutex hexclusive hread haccount hdrained
    rcases pending with _ | ⟨addr, pending⟩
    · cases done with
      | false =>
        exact { h with
          exclusive := hexclusive
          mutex := hmutex
          copied := fun _ _ _ h => (nomatch h)
          account := haccount
          read := fun h => (nomatch h)
          drained := fun _ h => (nomatch h)
          freed := fun hf => ⟨(hfreed hf).1, (hfreed hf).2.1, rfl⟩ }
      | true =>
        exact { h with
          exclusive := hexclusive
          mutex := hmutex
          copied := fun _ _ _ h => (nomatch h)
          account := haccount
          read := fun h => (nomatch h)
          drained := fun _ h => (nomatch h)
          freed := fun _ => ⟨hread rfl, hdrained rfl rfl, rfl⟩ }
    · exact { h with
        exclusive := hexclusive
        mutex := hmutex
        copied := fun _ _ _ h => (nomatch h)
        account := by
          rw [haccount]
          simp only [MainAt.pending, List.map_append, List.map_cons, List.map_nil,
            List.append_assoc, List.cons_append, List.nil_append]
        read := hread
        drained := hdrained
        freed := h.not_freed (by rw [hmain]; exact MainAt.noConfusion) }

/-- What holds at every interleaving is kept by a step. -/
theorem inv_step (h : s.Inv) (action : Action) : (s.step action).Inv := by
  cases action with
  | callPublish peers =>
    rw [step]
    split
    case h_2 => exact h
    case h_1 hworker =>
    split_ifs with hlock
    · exact h
    · have hmain : s.main.holds = false := by
        rw [← Bool.not_eq_true]
        intro hholds
        rw [h.mutex, hworker, hholds] at hlock
        exact hlock rfl
      exact { h with
        exclusive := fun h => absurd (hmain.symm.trans h.2) Bool.false_ne_true
        mutex := rfl
        done := fun hd => by rw [h.done hd] at hworker; exact nomatch hworker }
  | report announces interval error msg =>
    rw [step]
    split
    · exact { h with }
    · exact h
  | setDone =>
    rw [step]
    split
    case h_2 => exact h
    case h_1 hworker =>
    have hmutex := h.mutex
    rw [hworker] at hmutex
    exact { h with
      exclusive := fun h => (nomatch h.1)
      mutex := hmutex
      done := fun _ => rfl
      read := fun _ => rfl
      freed := fun hf => ⟨rfl, (h.freed hf).2⟩ }
  | publish =>
    rw [step]
    split
    case h_2 => exact h
    case h_1 peers hworker => exact inv_publish h hworker
  | collect => exact inv_collect h
  | other mgr =>
    rw [step]
    split
    · exact { h with }
    · exact h

theorem inv_run (actions : List Action) (h : s.Inv) : (run actions s).Inv := by
  induction actions generalizing s with
  | nil => exact h
  | cons action actions ih => exact ih (inv_step h action)

/-! ## The calls of the worker -/

/-- The queue after the call of `publish_candidates` the worker is in. -/
def published (s : Discovery) : List PeerAddr :=
  match s.worker with
  | .publishing peers => publishCandidates s.queue peers
  | _ => s.queue

/-- While the worker is in a call, no step of either thread changes what the
    queue is after it. -/
theorem published_step (h : s.Inv) (hworker : s.worker.holds = true) (action : Action) :
    (s.step action).published = s.published := by
  obtain ⟨peers, hpeers⟩ : ∃ peers, s.worker = .publishing peers := by
    cases hw : s.worker with
    | publishing peers => exact ⟨peers, rfl⟩
    | asking | returned => rw [hw] at hworker; exact nomatch hworker
  cases action with
  | callPublish | report | setDone => rw [step, hpeers]
  | publish =>
    have hstep : s.step .publish = s.publish peers := by rw [step, hpeers]
    have hpublished : s.published = publishCandidates s.queue peers := by rw [published, hpeers]
    rw [hstep, hpublished]
    cases peers with
    | nil => rfl
    | cons addr peers =>
      rw [publish, publishCandidates]
      split_ifs <;> rfl
  | collect =>
    have hmain := (h.publishing hpeers).2.2.1
    rw [step, collect]
    cases hm : s.main with
    | locked | copied | cleared => rw [hm] at hmain; exact nomatch hmain
    | elsewhere => dsimp only; split_ifs <;> rfl
    | found => dsimp only; split_ifs <;> rfl
    | loaded => rfl
    | adding done live pending =>
      cases pending with
      | cons => rfl
      | nil => cases done <;> rfl
  | other => rw [step]; split <;> rfl

/-! ## The torrent the addresses are handed to -/

/-- The torrent at an index is that of the generation, and downloading. -/
def LiveAt (m : TorrentMgr) (generation i : ℕ) : Prop :=
  ∃ mt, m.torrents[i]? = some mt ∧ mt.generation = generation ∧ mt.state = .downloading

theorem liveAt_addCandidate {m : TorrentMgr} {generation i : ℕ} (addr : PeerAddr)
    (h : LiveAt m generation i) :
    LiveAt (m.onTorrent i fun w => { w with mt := addCandidate addr w.mt }) generation i := by
  obtain ⟨mt, hmt, hgeneration, hstate⟩ := h
  have hsame := sameTransfer_addCandidate addr mt
  refine ⟨addCandidate addr mt, ?_, ?_, ?_⟩
  · rw [onTorrent_eq hmt]
    exact List.getElem?_set_self (List.getElem?_eq_some_iff.1 hmt).1
  · rw [hsame]
    exact hgeneration
  · rw [hsame]
    exact hstate

/-- The torrent that was found stays the live one until the addresses are handed on. -/
def Found (s : Discovery) : Prop :=
  ∀ i, s.main.target = some (some i) → LiveAt s.mgr s.result.generation i

theorem found_step (h : s.Found) (action : Action) : (s.step action).Found := by
  cases action with
  | callPublish | report | setDone => rw [step]; split <;> first | exact h | split_ifs <;> exact h
  | publish =>
    rw [step]
    split
    case h_2 => exact h
    case h_1 peers _ =>
    cases peers with
    | nil => exact h
    | cons => rw [publish]; split_ifs <;> exact h
  | other =>
    rw [step]
    split
    case h_2 => exact h
    case h_1 hmain =>
    intro i htarget
    change s.main.target = _ at htarget
    rw [hmain] at htarget
    exact nomatch htarget
  | collect =>
    rw [step, collect]
    cases hm : s.main with
    | elsewhere => dsimp only; split_ifs <;> first | exact h | exact fun _ h => (nomatch h)
    | loaded done =>
      intro i htarget
      exact live_eq_some (Option.some.inj htarget)
    | found done live =>
      rw [Found, hm] at h
      dsimp only
      split_ifs
      · rw [Found, hm]
        exact h
      · exact h
    | locked | copied | cleared =>
      rw [Found, hm] at h
      exact h
    | adding done live pending =>
      rw [Found, hm] at h
      cases pending with
      | nil => cases done <;> exact fun _ h => (nomatch h)
      | cons addr pending =>
        intro i htarget
        obtain rfl : live = some i := Option.some.inj htarget
        exact liveAt_addCandidate addr (h i rfl)

/-- What a step does to the manager: an address is taken out of what was copied
    and handed to the torrent that was found, if there is one; at the end of the
    job, what the worker reported is applied to this torrent. -/
inductive HandsOn (s : Discovery) : Action → Discovery → Prop
  | kept {action : Action} {s' : Discovery} (htaken : s'.taken = s.taken)
      (hmgr : s'.mgr = s.mgr) : HandsOn s action s'
  | other {s' : Discovery} {mgr : TorrentMgr} (hmain : s.main = .elsewhere)
      (htaken : s'.taken = s.taken) (hmgr : s'.mgr = mgr) : HandsOn s (.other mgr) s'
  | address {live : Option ℕ} {addr : PeerAddr} {s' : Discovery}
      (htarget : s.main.target = some live) (hpending : s.main.pending = addr :: s'.main.pending)
      (htaken : s'.taken = s.taken ++ [(live.isSome, addr)])
      (hmgr : s'.mgr = onFound live (fun w => { w with mt := addCandidate addr w.mt }) s.mgr) :
      HandsOn s .collect s'
  | report {live : Option ℕ} {s' : Discovery} (htarget : s.main.target = some live)
      (htaken : s'.taken = s.taken) (hfreed : s'.freed = true)
      (hmgr : s'.mgr = onFound live (applyDiscovery s.result) s.mgr) : HandsOn s .collect s'

theorem handsOn_step (s : Discovery) (action : Action) : HandsOn s action (s.step action) := by
  cases action with
  | callPublish | report | setDone =>
    rw [step]
    split <;> first | exact .kept rfl rfl | split_ifs <;> exact .kept rfl rfl
  | publish =>
    rw [step]
    split
    case h_2 => exact .kept rfl rfl
    case h_1 peers _ =>
    cases peers with
    | nil => exact .kept rfl rfl
    | cons => rw [publish]; split_ifs <;> exact .kept rfl rfl
  | other mgr =>
    rw [step]
    split
    case h_1 hmain => exact .other hmain rfl rfl
    case h_2 => exact .kept rfl rfl
  | collect =>
    rw [step, collect]
    cases hm : s.main with
    | elsewhere | found => dsimp only; split_ifs <;> exact .kept rfl rfl
    | loaded | locked | copied | cleared => exact .kept rfl rfl
    | adding done live pending =>
      -- only here does the main thread touch the torrent
      have htarget : s.main.target = some live := by rw [hm]; rfl
      cases pending with
      | cons addr pending => exact .address htarget (by rw [hm]; rfl) rfl rfl
      | nil =>
        cases done with
        | false => exact .kept rfl rfl
        | true => exact .report htarget rfl rfl rfl

/-- The torrent is live at every state of a run until the job is freed. -/
def LiveUntilFreed : List Action → Discovery → Prop
  | [], s => s.freed = true ∨ s.live.isSome
  | action :: actions, s =>
    (s.freed = true ∨ s.live.isSome) ∧ LiveUntilFreed actions (s.step action)

/-- Every address that was taken was handed to `add_candidate`. -/
structure Handed (s : Discovery) : Prop where
  taken : ∀ x ∈ s.taken, x.1 = true
  target : s.main.target ≠ some none

theorem handed_step (hlive : s.freed = true ∨ s.live.isSome) (hinv : s.Inv) (h : s.Handed)
    (action : Action) : (s.step action).Handed := by
  cases action with
  | callPublish | report | setDone =>
    rw [step]
    split <;> first | exact ⟨h.1, h.2⟩ | split_ifs <;> exact ⟨h.1, h.2⟩
  | publish =>
    rw [step]
    split
    case h_2 => exact h
    case h_1 peers _ =>
    cases peers with
    | nil => exact ⟨h.1, h.2⟩
    | cons => rw [publish]; split_ifs <;> exact ⟨h.1, h.2⟩
  | other => rw [step]; split <;> exact ⟨h.1, h.2⟩
  | collect =>
    have htarget := h.target
    rw [step, collect]
    cases hm : s.main with
    | elsewhere => dsimp only; split_ifs <;> first | exact h | exact ⟨h.1, fun h => (nomatch h)⟩
    | loaded done =>
      refine ⟨h.1, fun hnone => ?_⟩
      rcases hlive with hfreed | hsome
      · exact hinv.not_freed (by rw [hm]; exact MainAt.noConfusion) hfreed
      · rw [show s.live = none from Option.some.inj hnone] at hsome
        exact nomatch hsome
    | found done live =>
      rw [hm] at htarget
      dsimp only
      split_ifs
      · exact h
      · exact ⟨h.1, htarget⟩
    | locked | copied | cleared =>
      rw [hm] at htarget
      exact ⟨h.1, htarget⟩
    | adding done live pending =>
      rw [hm] at htarget
      cases pending with
      | nil => cases done <;> exact ⟨h.1, fun h => (nomatch h)⟩
      | cons addr pending =>
        refine ⟨fun x hx => ?_, htarget⟩
        rcases List.mem_append.1 hx with hx | hx
        · exact h.1 x hx
        · rw [List.mem_singleton.1 hx, ← Option.ne_none_iff_isSome]
          rintro rfl
          exact htarget rfl

theorem handed_run {actions : List Action} (hlive : LiveUntilFreed actions s) (hinv : s.Inv)
    (h : s.Handed) : (run actions s).Handed := by
  induction actions generalizing s with
  | nil => exact h
  | cons action actions ih =>
    exact ih hlive.2 (inv_step hinv action) (handed_step hlive.1 hinv h action)

theorem found_run (actions : List Action) (h : s.Found) : (run actions s).Found := by
  induction actions generalizing s with
  | nil => exact h
  | cons action actions ih => exact ih (found_step h action)

/-- At every interleaving, the queue holds distinct addresses, at most 200, and
    every address that was put into it is in it, on the way to the torrent or
    was taken, in this order and once. When the job is freed, its worker has
    returned and all addresses were taken; if the torrent was live until then,
    all were handed to it. To be taken for a torrent means that the same step
    adds the address to its candidates, and no other step of the two threads at
    the job adds one. -/
theorem discovery_of_interleaving (result : ManagedTorrent) (mgr : TorrentMgr)
    (actions : List Action) :
    let s := run actions (start result mgr)
    (s.queue.Nodup ∧ s.queue.length ≤ MAX_TRACKER_PEERS) ∧
    s.placed = s.taken.map Prod.snd ++ s.main.pending ++ s.queue ∧
    (∀ i, s.main.target = some (some i) → LiveAt s.mgr s.result.generation i) ∧
    (s.freed = true → s.worker = .returned ∧ s.mutex = none ∧
      s.placed = s.taken.map Prod.snd) ∧
    (LiveUntilFreed actions (start result mgr) → s.freed = true →
      s.taken = s.placed.map fun addr => (true, addr)) ∧
    ∀ action, HandsOn s action (s.step action) := by
  intro s
  have hinv : s.Inv := inv_run actions (inv_start result mgr)
  have hall (hfreed : s.freed = true) : s.placed = s.taken.map Prod.snd := by
    obtain ⟨-, hqueue, hmain⟩ := hinv.freed hfreed
    rw [hinv.account, hqueue, hmain, List.append_nil]
    exact List.append_nil _
  refine ⟨⟨hinv.nodup, hinv.length⟩, hinv.account, ?_, fun hfreed => ?_,
    fun hlive hfreed => ?_, handsOn_step s⟩
  · exact found_run actions fun _ h => nomatch h
  · obtain ⟨hdone, -, hmain⟩ := hinv.freed hfreed
    have hreturned := hinv.done hdone
    refine ⟨hreturned, ?_, hall hfreed⟩
    rw [hinv.mutex, hreturned, hmain]
    rfl
  · have hhanded : s.Handed := handed_run hlive (inv_start result mgr)
      ⟨fun _ h => (nomatch h), fun h => (nomatch h)⟩
    have hpair (x : Bool × PeerAddr) (hx : x ∈ s.taken) : (true, x.2) = id x := by
      rw [← hhanded.taken x hx]
      rfl
    rw [hall hfreed, List.map_map]
    exact ((List.map_congr_left hpair).trans (List.map_id _)).symm

end Discovery

end PS5Torrent
