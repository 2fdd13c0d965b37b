import PS5Torrent.TorrentMgr.Holders

/-!
# The cooldown of a peer

After a failure, no connection to a peer is attempted until its cooldown is
over, which grows with the number of failures in a row, as long as the peer is
not replaced in the table of candidates (`cooldown_of_reachable`): a candidate
that is replaced is forgotten with its failures (`exists_evictedMgr`).

The history of the generation says what the failures in a row are
(`failuresInRow`) and when the cooldown of the last one ends (`cooldown`); a
candidate agrees with it (`Cooldowns`).
-/

namespace PS5Torrent

open Relation Work TorrentMgr

/-! ## The delay -/

theorem retryDelay_le (failures : ℕ) : retryDelay failures ≤ 300 := Nat.min_le_left _ _

theorem retryDelay_mono : Monotone retryDelay := by
  refine monotone_nat_of_le_succ fun failures => ?_
  rcases Nat.lt_or_ge failures 5 with hlt | hge
  · interval_cases failures <;> decide
  · rw [retryDelay, retryDelay, if_pos (by omega), if_pos (by omega)]

/-- The number of failures is counted up to five. -/
theorem retryDelay_min (failures : ℕ) : retryDelay (min 5 failures) = retryDelay failures := by
  rcases Nat.lt_or_ge failures 5 with hlt | hge
  · rw [min_eq_right hlt.le]
  · rw [min_eq_left hge, retryDelay, retryDelay, if_pos (by decide), if_pos (by omega)]

/-! ## Histories -/

/-- The address that an entry is about. -/
def PeerLog.addr : PeerLog → PeerAddr
  | failed addr _ => addr
  | verified addr => addr
  | attempt addr _ => addr
  | replaced addr => addr

/-- The failures of an address since a piece of its peer was last verified. -/
def failuresInRow (addr : PeerAddr) : List PeerLog → ℕ
  | [] => 0
  | .failed a _ :: log => if a = addr then failuresInRow addr log + 1 else failuresInRow addr log
  | .verified a :: log => if a = addr then 0 else failuresInRow addr log
  | .attempt _ _ :: log => failuresInRow addr log
  | .replaced _ :: log => failuresInRow addr log

/-- When the cooldowns of these failures are over. -/
def cooldown (addr : PeerAddr) : List PeerLog → ℕ
  | [] => 0
  | .failed a time :: log =>
    if a = addr then max (cooldown addr log) (time + retryDelay (failuresInRow addr log + 1))
    else cooldown addr log
  | .verified a :: log => if a = addr then 0 else cooldown addr log
  | .attempt _ _ :: log => cooldown addr log
  | .replaced _ :: log => cooldown addr log

/-- Each attempt at an address that was not replaced comes after its cooldown. -/
def Spaced : List PeerLog → Prop
  | [] => True
  | .attempt addr now :: log =>
    (.replaced addr ∉ log → cooldown addr log ≤ now) ∧ Spaced log
  | _ :: log => Spaced log

variable {addr : PeerAddr} {log older mid : List PeerLog} {time now : ℕ} {entry : PeerLog}

/-- An entry about another address. -/
theorem failuresInRow_of_ne (h : entry.addr ≠ addr) (log : List PeerLog) :
    failuresInRow addr (entry :: log) = failuresInRow addr log ∧
      cooldown addr (entry :: log) = cooldown addr log := by
  cases entry with
  | failed a time =>
    have hne : a ≠ addr := h
    exact ⟨if_neg hne, if_neg hne⟩
  | verified a =>
    have hne : a ≠ addr := h
    exact ⟨if_neg hne, if_neg hne⟩
  | attempt | replaced => exact ⟨rfl, rfl⟩

/-- A cooldown lasts until a piece is verified. -/
theorem le_cooldown (h : .verified addr ∉ mid) :
    time + retryDelay (failuresInRow addr older + 1) ≤
      cooldown addr (mid ++ .failed addr time :: older) := by
  induction mid with
  | nil =>
    rw [List.nil_append, cooldown, if_pos rfl]
    exact le_max_right _ _
  | cons entry mid ih =>
    rw [List.mem_cons, not_or] at h
    have hle := ih h.2
    rw [List.cons_append]
    cases entry with
    | failed a t =>
      rw [cooldown]
      split
      · exact hle.trans (le_max_left _ _)
      · exact hle
    | verified a =>
      have hne : a ≠ addr := fun heq => h.1 (by rw [heq])
      rw [cooldown, if_neg hne]
      exact hle
    | attempt | replaced => exact hle

/-- An address that has not failed has no cooldown. -/
theorem cooldown_eq_zero (h : ∀ t, .failed addr t ∉ log) :
    failuresInRow addr log = 0 ∧ cooldown addr log = 0 := by
  induction log with
  | nil => exact ⟨rfl, rfl⟩
  | cons entry log ih =>
    obtain ⟨hfailures, hcooldown⟩ := ih fun t ht => h t (List.mem_cons_of_mem _ ht)
    cases entry with
    | failed a t =>
      have hne : a ≠ addr := fun heq => h t (by rw [heq]; exact List.mem_cons_self)
      rw [failuresInRow, cooldown, if_neg hne, if_neg hne]
      exact ⟨hfailures, hcooldown⟩
    | verified a =>
      rw [failuresInRow, cooldown]
      split
      · exact ⟨rfl, rfl⟩
      · exact ⟨hfailures, hcooldown⟩
    | attempt | replaced => exact ⟨hfailures, hcooldown⟩

/-- A cooldown is over when that of a failure now would be. -/
theorem cooldown_le (h : ∀ t, .failed addr t ∈ log → t ≤ now) :
    cooldown addr log ≤ now + retryDelay (failuresInRow addr log) := by
  induction log with
  | nil => exact Nat.zero_le _
  | cons entry log ih =>
    have hle := ih fun t ht => h t (List.mem_cons_of_mem _ ht)
    cases entry with
    | failed a t =>
      rw [failuresInRow, cooldown]
      split
      case isTrue heq =>
        have ht := h t (by rw [heq]; exact List.mem_cons_self)
        have hdelay := retryDelay_mono (Nat.le_succ (failuresInRow addr log))
        exact max_le (hle.trans (Nat.add_le_add_left hdelay _)) (Nat.add_le_add_right ht _)
      case isFalse => exact hle
    | verified a =>
      rw [failuresInRow, cooldown]
      split
      · exact Nat.zero_le _
      · exact hle
    | attempt | replaced => exact hle

/-- What the spacing of a history says of each attempt and each failure before it. -/
theorem Spaced.le (h : Spaced log) {newer : List PeerLog}
    (hlog : log = newer ++ .attempt addr now :: (mid ++ .failed addr time :: older))
    (hverified : .verified addr ∉ mid) (hreplaced : .replaced addr ∉ mid ++ older) :
    time + retryDelay (failuresInRow addr older + 1) ≤ now := by
  subst hlog
  induction newer with
  | nil =>
    refine (le_cooldown hverified).trans (h.1 fun hmem => hreplaced ?_)
    rw [List.mem_append, List.mem_cons] at hmem
    rw [List.mem_append]
    rcases hmem with hmem | hmem | hmem
    · exact .inl hmem
    · cases hmem
    · exact .inr hmem
  | cons entry newer ih =>
    refine ih ?_
    cases entry with
    | attempt => exact h.2
    | failed | verified | replaced => exact h

/-! ## Candidates -/

/-- The record of a candidate agrees with the history. -/
structure PeerCandidate.Agrees (log : List PeerLog) (c : PeerCandidate) : Prop where
  failures : c.failures = min 5 (failuresInRow c.addr log)
  retryAfter : cooldown c.addr log ≤ c.retryAfter

/-- The candidates of a torrent agree with the history of its generation. -/
structure Cooldowns (read : ℕ → Prop) (candidates : List PeerCandidate) (log : List PeerLog) :
    Prop where
  nodup : (candidates.map PeerCandidate.addr).Nodup
  times : ∀ addr time, .failed addr time ∈ log → read time
  known : ∀ addr time, .failed addr time ∈ log → .replaced addr ∉ log →
    ∃ c ∈ candidates, c.addr = addr
  agrees : ∀ c ∈ candidates, .replaced c.addr ∉ log → c.Agrees log
  spaced : Spaced log

namespace Cooldowns

variable {read read' : ℕ → Prop} {candidates : List PeerCandidate} {log' : List PeerLog}
  {c c' : PeerCandidate} {i : ℕ} {f : PeerCandidate → PeerCandidate}

theorem empty (read : ℕ → Prop) : Cooldowns read [] [] where
  nodup := List.nodup_nil
  times addr time h := by cases h
  known addr time h := by cases h
  agrees c h := by cases h
  spaced := trivial

theorem mono (h : Cooldowns read candidates log) (hread : ∀ time, read time → read' time) :
    Cooldowns read' candidates log :=
  { h with times := fun addr time hmem => hread time (h.times addr time hmem) }

/-- No other candidate has the address. -/
theorem eq_of_addr (h : Cooldowns read candidates log) (hc : candidates[i]? = some c) {j : ℕ}
    (hc' : candidates[j]? = some c') (haddr : c'.addr = c.addr) : j = i := by
  have hi : (candidates.map PeerCandidate.addr)[i]? = some c.addr := by
    rw [List.getElem?_map, hc, Option.map_some]
  have hj : (candidates.map PeerCandidate.addr)[j]? = some c.addr := by
    rw [List.getElem?_map, hc', Option.map_some, haddr]
  exact (List.getElem?_inj (List.getElem?_eq_some_iff.1 hj).1 h.nodup).1 (hj.trans hi.symm)

/-- What the candidates are once the one at an index has changed. -/
theorem mem_modify (h : Cooldowns read candidates log) (hc : candidates[i]? = some c)
    (hc' : c' ∈ candidates.modify i f) : c' = f c ∨ c' ∈ candidates ∧ c'.addr ≠ c.addr := by
  obtain ⟨j, hj⟩ := List.mem_iff_getElem?.1 hc'
  rw [List.getElem?_modify] at hj
  obtain ⟨old, hold, hnew⟩ := Option.map_eq_some_iff.1 hj
  split at hnew
  case isTrue hij =>
    rw [← hij, hc] at hold
    rw [← hnew, ← Option.some.inj hold]
    exact .inl rfl
  case isFalse hij =>
    obtain rfl : old = c' := hnew
    exact .inr ⟨List.mem_of_getElem? hold, fun haddr => hij (h.eq_of_addr hc hold haddr).symm⟩

theorem mem_modify_of_mem (hc : candidates[i]? = some c) (hc' : c' ∈ candidates)
    (hne : c' ≠ c) : c' ∈ candidates.modify i f := by
  obtain ⟨j, hj⟩ := List.mem_iff_getElem?.1 hc'
  have hij : i ≠ j := fun h => hne (by
    rw [← h, hc] at hj
    exact (Option.some.inj hj).symm)
  refine List.mem_iff_getElem?.2 ⟨j, ?_⟩
  rw [List.getElem?_modify, hj]
  exact congrArg some (if_neg hij)

theorem self_mem_modify (hc : candidates[i]? = some c) : f c ∈ candidates.modify i f := by
  refine List.mem_iff_getElem?.2 ⟨i, ?_⟩
  rw [List.getElem?_modify, hc]
  exact congrArg some (if_pos rfl)

/-- A candidate changes, with a history that says so. -/
theorem modify (h : Cooldowns read candidates log) (hc : candidates[i]? = some c)
    (haddr : (f c).addr = c.addr)
    (hothers : ∀ addr, c.addr ≠ addr →
      failuresInRow addr log' = failuresInRow addr log ∧ cooldown addr log' = cooldown addr log)
    (hreplaced : ∀ addr, .replaced addr ∈ log → .replaced addr ∈ log')
    (hread : ∀ time, read time → read' time)
    (hfailed : ∀ addr time, .failed addr time ∈ log' →
      .failed addr time ∈ log ∨ addr = c.addr ∧ read' time)
    (hagrees : .replaced c.addr ∉ log → (f c).Agrees log') (hspaced : Spaced log') :
    Cooldowns read' (candidates.modify i f) log' where
  nodup := by
    have hmap : (candidates.modify i f).map PeerCandidate.addr =
        candidates.map PeerCandidate.addr := by
      rw [List.modify_eq_set_getElem?, hc, Option.map_eq_map, Option.map_some, Option.getD_some,
        List.map_set, haddr]
      refine Slots.set_getElem?_self ?_
      rw [List.getElem?_map, hc, Option.map_some]
    rw [hmap]
    exact h.nodup
  times addr time hmem := by
    rcases hfailed addr time hmem with hold | ⟨-, hnew⟩
    · exact hread time (h.times addr time hold)
    · exact hnew
  known addr time hmem hnot := by
    rcases hfailed addr time hmem with hold | ⟨rfl, -⟩
    · obtain ⟨c', hc', rfl⟩ := h.known addr time hold fun h => hnot (hreplaced addr h)
      by_cases heq : c' = c
      · rw [heq]
        exact ⟨f c, self_mem_modify hc, haddr⟩
      · exact ⟨c', mem_modify_of_mem hc hc' heq, rfl⟩
    · exact ⟨f c, self_mem_modify hc, haddr⟩
  agrees c' hc' hnot := by
    have hnot' : .replaced c'.addr ∉ log := fun h => hnot (hreplaced _ h)
    rcases h.mem_modify hc hc' with rfl | ⟨hmem, hne⟩
    · rw [haddr] at hnot'
      exact hagrees hnot'
    · obtain ⟨hfailures, hcooldown⟩ := hothers c'.addr (Ne.symm hne)
      have hold := h.agrees c' hmem hnot'
      exact ⟨hfailures ▸ hold.failures, hcooldown ▸ hold.retryAfter⟩
  spaced := hspaced

/-- A candidate changes in a way that does not end its cooldown. -/
theorem update (h : Cooldowns read candidates log) (hc : candidates[i]? = some c)
    (haddr : (f c).addr = c.addr) (hfailures : (f c).failures = c.failures)
    (hretry : c.retryAfter ≤ (f c).retryAfter) : Cooldowns read (candidates.modify i f) log := by
  refine h.modify hc haddr (fun _ _ => ⟨rfl, rfl⟩) (fun _ h => h) (fun _ h => h)
    (fun _ _ h => .inl h) (fun hnot => ?_) h.spaced
  have hold := h.agrees c (List.mem_of_getElem? hc) hnot
  refine ⟨?_, ?_⟩
  · rw [hfailures, haddr]
    exact hold.failures
  · rw [haddr]
    exact hold.retryAfter.trans hretry

/-- A failure is recorded. -/
theorem failed (h : Cooldowns read candidates log) (hc : candidates[i]? = some c)
    (hread : ∀ time, read time → read' time ∧ time ≤ now) (hnow : read' now) :
    Cooldowns read' (candidates.modify i (·.failed now)) (.failed c.addr now :: log) := by
  refine h.modify hc rfl
    (fun addr (hne : (PeerLog.failed c.addr now).addr ≠ addr) => failuresInRow_of_ne hne log)
    (fun addr => List.mem_cons_of_mem _) (fun time ht => (hread time ht).1) (fun addr time hmem => ?_)
    (fun hnot => ?_) h.spaced
  · rcases List.mem_cons.1 hmem with heq | hmem
    · cases heq
      exact .inr ⟨rfl, hnow⟩
    · exact .inl hmem
  · have hold := h.agrees c (List.mem_of_getElem? hc) hnot
    have hcount : (c.failed now).failures = min 5 (failuresInRow c.addr log + 1) := by
      rw [PeerCandidate.failed, hold.failures]
      dsimp only
      split
      · omega
      · omega
    have hle : cooldown c.addr log ≤ now + retryDelay (failuresInRow c.addr log) :=
      cooldown_le fun time ht => (hread time (h.times _ time ht)).2
    have hdelay := retryDelay_mono (Nat.le_succ (failuresInRow c.addr log))
    refine ⟨?_, ?_⟩
    · rw [hcount]
      change _ = min 5 (failuresInRow c.addr (.failed c.addr now :: log))
      rw [failuresInRow, if_pos rfl]
    · change cooldown c.addr (.failed c.addr now :: log) ≤ now + retryDelay (c.failed now).failures
      rw [cooldown, if_pos rfl, hcount, retryDelay_min]
      exact max_le (hle.trans (Nat.add_le_add_left hdelay _)) le_rfl

/-- A piece is verified. -/
theorem verified (h : Cooldowns read candidates log) (hc : candidates[i]? = some c) :
    Cooldowns read (candidates.modify i fun c => { c with failures := 0, retryAfter := 0 })
      (.verified c.addr :: log) := by
  refine h.modify hc rfl
    (fun addr (hne : (PeerLog.verified c.addr).addr ≠ addr) => failuresInRow_of_ne hne log)
    (fun addr => List.mem_cons_of_mem _) (fun _ h => h) (fun addr time hmem => ?_) (fun _ => ?_)
    h.spaced
  · rcases List.mem_cons.1 hmem with heq | hmem
    · cases heq
    · exact .inl hmem
  · refine ⟨?_, ?_⟩
    · change 0 = min 5 (failuresInRow c.addr (.verified c.addr :: log))
      rw [failuresInRow, if_pos rfl]
      rfl
    · change cooldown c.addr (.verified c.addr :: log) ≤ 0
      rw [cooldown, if_pos rfl]

/-- A piece from a peer that is no candidate is verified. -/
theorem verified_of_unknown (h : Cooldowns read candidates log)
    (hne : ∀ c ∈ candidates, c.addr ≠ addr) :
    Cooldowns read candidates (.verified addr :: log) where
  nodup := h.nodup
  times a time hmem := h.times a time ((List.mem_cons.1 hmem).resolve_left fun h => nomatch h)
  known a time hmem hnot :=
    h.known a time ((List.mem_cons.1 hmem).resolve_left fun h => nomatch h) fun h =>
      hnot (List.mem_cons_of_mem _ h)
  agrees c hc hnot := by
    have hother : (PeerLog.verified addr).addr ≠ c.addr := Ne.symm (hne c hc)
    obtain ⟨hfailures, hcooldown⟩ := failuresInRow_of_ne hother log
    have hold := h.agrees c hc fun h => hnot (List.mem_cons_of_mem _ h)
    exact ⟨hfailures ▸ hold.failures, hcooldown ▸ hold.retryAfter⟩
  spaced := h.spaced

/-- A connection is attempted after the cooldown. -/
theorem attempt (h : Cooldowns read candidates log) (hc : candidates[i]? = some c)
    (hnow : c.retryAfter ≤ now) :
    Cooldowns read (candidates.modify i fun c => { c with connecting := true })
      (.attempt c.addr now :: log) := by
  refine h.modify hc rfl
    (fun addr (hne : (PeerLog.attempt c.addr now).addr ≠ addr) => failuresInRow_of_ne hne log)
    (fun addr => List.mem_cons_of_mem _) (fun _ h => h) (fun addr time hmem => ?_) (fun hnot => ?_)
    ⟨fun hnot => ?_, h.spaced⟩
  · rcases List.mem_cons.1 hmem with heq | hmem
    · cases heq
    · exact .inl hmem
  · have hold := h.agrees c (List.mem_of_getElem? hc) hnot
    exact ⟨hold.failures, hold.retryAfter⟩
  · exact (h.agrees c (List.mem_of_getElem? hc) hnot).retryAfter.trans hnow

/-- A new candidate agrees with the history, as it has no failures. -/
theorem agrees_new (h : Cooldowns read candidates log) (hne : ∀ c ∈ candidates, c.addr ≠ addr)
    (hnot : .replaced addr ∉ log) : (⟨addr, 0, 0, false⟩ : PeerCandidate).Agrees log := by
  have hnever (time : ℕ) : PeerLog.failed addr time ∉ log := fun hmem => by
    obtain ⟨c, hc, haddr⟩ := h.known addr time hmem hnot
    exact hne c hc haddr
  obtain ⟨hfailures, hcooldown⟩ := cooldown_eq_zero hnever
  exact ⟨by rw [hfailures]; rfl, hcooldown.le⟩

theorem add (h : Cooldowns read candidates log) (hne : ∀ c ∈ candidates, c.addr ≠ addr) :
    Cooldowns read (candidates ++ [⟨addr, 0, 0, false⟩]) log where
  nodup := by
    rw [List.map_append, List.map_singleton]
    refine List.nodup_append.2 ⟨h.nodup, List.nodup_singleton _, fun a ha b hb => ?_⟩
    obtain ⟨c, hc, rfl⟩ := List.mem_map.1 ha
    rw [List.mem_singleton.1 hb]
    exact hne c hc
  times := h.times
  known a time hmem hnot := by
    obtain ⟨c, hc, haddr⟩ := h.known a time hmem hnot
    exact ⟨c, List.mem_append_left _ hc, haddr⟩
  agrees c hc hnot := by
    rcases List.mem_append.1 hc with hc | hc
    · exact h.agrees c hc hnot
    · rw [List.mem_singleton.1 hc] at hnot ⊢
      exact h.agrees_new hne hnot
  spaced := h.spaced

/-- A candidate is replaced by a new one. -/
theorem replace (h : Cooldowns read candidates log) (hc : candidates[i]? = some c)
    (hne : ∀ c ∈ candidates, c.addr ≠ addr) :
    Cooldowns read (candidates.modify i fun _ => ⟨addr, 0, 0, false⟩) (.replaced c.addr :: log) where
  nodup := by
    rw [List.modify_eq_set_getElem?, hc, Option.map_eq_map, Option.map_some, Option.getD_some,
      List.map_set]
    refine h.nodup.set fun hmem => ?_
    obtain ⟨c', hc', haddr⟩ := List.mem_map.1 hmem
    exact hne c' hc' haddr
  times a time hmem := h.times a time ((List.mem_cons.1 hmem).resolve_left fun h => nomatch h)
  known a time hmem hnot := by
    rw [List.mem_cons, not_or] at hnot
    obtain ⟨c', hc', rfl⟩ := h.known a time
      ((List.mem_cons.1 hmem).resolve_left fun h => nomatch h) hnot.2
    exact ⟨c', mem_modify_of_mem hc hc' fun heq => hnot.1 (by rw [heq]), rfl⟩
  agrees c' hc' hnot := by
    rw [List.mem_cons, not_or] at hnot
    rcases h.mem_modify hc hc' with rfl | ⟨hmem, -⟩
    · have hnew := h.agrees_new hne hnot.2
      exact ⟨hnew.failures, hnew.retryAfter⟩
    · have hold := h.agrees c' hmem hnot.2
      exact ⟨hold.failures, hold.retryAfter⟩
  spaced := h.spaced

end Cooldowns

/-! ## Steps -/

/-- The candidates of a torrent agree with its history. -/
def Work.Cooled (w : Work) : Prop := Cooldowns w.Read w.mt.peerCandidates w.mt.peerLog

variable {w w' : Work} {mt : ManagedTorrent} {read : ℕ → Prop}

theorem cooled_next (h : w.Cooled) : w.next.Cooled := h.mono fun _ => read_next

theorem cooled_recordPeerFailure (addr : PeerAddr) (hclock : w.ClockMonotone) (h : w.Cooled) :
    (recordPeerFailure addr w).Cooled := by
  rw [recordPeerFailure]
  cases hfind : findCandidate w.mt addr with
  | none => exact h
  | some i =>
    obtain ⟨c, hc, rfl⟩ := findCandidate_eq_some hfind
    exact Cooldowns.failed h hc (fun time ht => ⟨read_next ht, le_time_of_read hclock ht⟩)
      ⟨w.queries, Nat.lt_succ_self _, rfl⟩

theorem cooled_disconnectPeer (i : ℕ) (hclock : w.ClockMonotone) (h : w.Cooled) :
    (disconnectPeer i w).Cooled := by
  cases hp : w.mt.peers[i]? with
  | none =>
    rw [disconnectPeer_of_none hp]
    exact h
  | some p =>
    rw [disconnectPeer_eq hp]
    change (hangUp p w).Cooled
    rw [hangUp]
    split
    case isTrue => exact h
    case isFalse =>
      dsimp only
      split
      case isTrue => exact cooled_recordPeerFailure p.addr hclock h
      case isFalse => exact h

theorem cooldowns_clearFailures (addr : PeerAddr)
    (h : Cooldowns read mt.peerCandidates mt.peerLog) :
    Cooldowns read (clearFailures addr mt).peerCandidates (.verified addr :: mt.peerLog) := by
  rw [clearFailures, ManagedTorrent.updateCandidate]
  cases hfind : findCandidate mt addr with
  | none => exact h.verified_of_unknown fun c hc => findCandidate_eq_none hfind hc
  | some i =>
    obtain ⟨c, hc, rfl⟩ := findCandidate_eq_some hfind
    exact h.verified hc

theorem Work.Step.cooled (hstep : Step w w') (hclock : w.ClockMonotone) (h : w.Cooled) :
    w'.Cooled := by
  cases hstep with
  | query => exact cooled_next h
  | discovery => exact cooled_next h
  | report hmt =>
    rw [hmt]
    exact h
  | speed | takeCandidate | peer | receive | fail | claim | request | webSeed => exact h
  | postpone hc hnow => exact Cooldowns.update h hc rfl rfl (hnow.trans (Nat.le_add_right _ _))
  | connect hslot hc hconnecting hnow => exact Cooldowns.attempt h hc hnow
  | finish hstate hreceives hfull hhash hwrite =>
    obtain ⟨downloaded, heq⟩ := finishPiece_eq (getElem?_setPeer hreceives.peer _) hhash hwrite
    rw [heq]
    exact cooldowns_clearFailures _ h
  | reject | writeFailed | disconnect => exact cooled_disconnectPeer _ hclock h

theorem Work.Steps.cooled (hsteps : Steps w w') (hclock : w.ClockMonotone) (h : w.Cooled) :
    w'.Cooled := by
  induction hsteps with
  | refl => exact h
  | tail hfirst hstep ih =>
    refine hstep.cooled ?_ ih
    rw [World.ClockMonotone, (Steps.local hfirst).world.env]
    exact hclock

/-! ## Operations -/

theorem cooled_disconnectPeers (hclock : w.ClockMonotone) (h : w.Cooled) :
    (disconnectPeers w).Cooled := by
  rw [disconnectPeers]
  generalize List.range w.mt.peers.length = is
  induction is generalizing w with
  | nil => exact h
  | cons i is ih =>
    refine ih ?_ (cooled_disconnectPeer i hclock h)
    rw [World.ClockMonotone, (local_disconnectPeer i w).world.env]
    exact hclock

theorem cooldowns_addCandidate (addr : PeerAddr)
    (h : Cooldowns read mt.peerCandidates mt.peerLog) :
    Cooldowns read (addCandidate addr mt).peerCandidates (addCandidate addr mt).peerLog := by
  rw [addCandidate]
  split
  case isTrue => exact h
  case isFalse hnew =>
    simp only [Bool.or_eq_true, not_or, Option.not_isSome_iff_eq_none] at hnew
    have hne : ∀ c ∈ mt.peerCandidates, c.addr ≠ addr := fun c => findCandidate_eq_none hnew.2
    split
    case isTrue =>
      cases replacedCandidate mt with
      | none => exact h
      | some slot =>
        dsimp only
        rw [replaceCandidate]
        cases hc : mt.peerCandidates[slot]? with
        | none => exact h
        | some c => exact h.replace hc hne
    case isFalse => exact h.add hne

theorem cooldowns_addCandidates (queue : List PeerAddr)
    (h : Cooldowns read mt.peerCandidates mt.peerLog) :
    let mt' := queue.foldl (fun mt addr => addCandidate addr mt) mt
    Cooldowns read mt'.peerCandidates mt'.peerLog := by
  induction queue generalizing mt with
  | nil => exact h
  | cons addr queue ih => exact ih (cooldowns_addCandidate addr h)

theorem cooled_stopTorrent (w : Work) : (stopTorrent w).Cooled := by
  obtain ⟨queries, bytes, releases, pm, -, heq⟩ := stopTorrent_eq w
  rw [heq]
  exact Cooldowns.empty _

theorem cooled_resetTorrent (h : w.Cooled) : (resetTorrent w).Cooled := by
  rw [resetTorrent]
  split
  · exact cooled_stopTorrent w
  · exact h

theorem cooled_applyConnection (job : PeerConnectJob) (hclock : w.ClockMonotone) (h : w.Cooled) :
    (applyConnection job w).Cooled := by
  have hupdate : Cooldowns w.Read
      (w.mt.updateCandidate job.addr fun c => { c with connecting := false }).peerCandidates
      (w.mt.updateCandidate job.addr fun c => { c with connecting := false }).peerLog := by
    rw [ManagedTorrent.updateCandidate]
    cases hfind : findCandidate w.mt job.addr with
    | none => exact h
    | some i =>
      obtain ⟨c, hc, -⟩ := findCandidate_eq_some hfind
      exact Cooldowns.update h hc rfl rfl le_rfl
  rw [applyConnection]
  dsimp only
  generalize w.mt.updateCandidate job.addr (fun c => { c with connecting := false }) = mt at hupdate
  cases job.sock with
  | none => exact cooled_recordPeerFailure (w := { w with mt := mt }) job.addr hclock hupdate
  | some sock =>
    dsimp only
    split
    case isTrue => exact hupdate
    case isFalse =>
      split
      case h_1 => exact hupdate
      case h_2 mt' hadd =>
        obtain ⟨peers, active, rfl⟩ := addPeer_eq hadd
        exact cooled_next (w := { w with mt := mt }) hupdate

theorem Work.Op.cooled (hop : Op w w') (hsound : w.Sound) (hclock : w.ClockMonotone)
    (h : w.Cooled) : w'.Cooled := by
  cases hop with
  | tick hstate hsteps => exact hsteps.cooled hclock h
  | complete => exact cooled_disconnectPeers hclock h
  | start =>
    rcases startTorrent_cases w with ⟨heq, -⟩ | ⟨-, hopened⟩
    · rw [heq]
      exact h
    · have hreset := cooled_resetTorrent h
      rw [Work.Cooled, hopened.torrent]
      exact hreset.mono fun _ => hopened.world.extends.read
  | stop => exact cooled_stopTorrent w
  | @candidates slot job => exact cooldowns_addCandidates job.queue h
  | @discovery slot job =>
    have hdiscovered : (applyDiscovery job.result w).Cooled := by
      have hnext := cooled_next h
      obtain ⟨hcandidates, hlog⟩ :
          (job.result.discovered w.outcome.time w.mt).peerCandidates = w.mt.peerCandidates ∧
            (job.result.discovered w.outcome.time w.mt).peerLog = w.mt.peerLog := by
        rw [ManagedTorrent.discovered, adoptTrackerError, countTrackerFailure]
        split_ifs <;> exact ⟨rfl, rfl⟩
      rw [Work.Cooled, applyDiscovery, ManagedTorrent.logRound]
      dsimp only
      rw [hcandidates, hlog]
      exact hnext
    exact hdiscovered
  | @connection slot job => exact cooled_applyConnection job hclock h
  | @webSeed slot job hstate hslot hjob =>
    obtain ⟨first, hcommit⟩ := committing_collect hsound hstate hslot hjob
    have hcommitted : Cooldowns (applyWebSeed job w).Read w.mt.peerCandidates w.mt.peerLog :=
      h.mono fun _ => hcommit.world.extends.read
    change Cooldowns (applyWebSeed job w).Read (applyWebSeed job w).mt.peerCandidates
      (applyWebSeed job w).mt.peerLog
    rw [hcommit.torrent]
    exact hcommitted

/-! ## Runs -/

/-- The candidates of a torrent agree with its history. -/
theorem invariant_cooled : Invariant fun world mt => world.ClockMonotone → Work.Cooled ⟨world, mt⟩ where
  added hadded _ _ := by
    obtain ⟨t, savePath, isMagnet, magnetUri, peerId, rfl, -⟩ := hadded
    exact Cooldowns.empty _
  next h := h
  op {w w'} hop hsound h hclock := by
    rw [World.ClockMonotone, (hop.confined hsound).world.env] at hclock
    exact hop.cooled hsound hclock (h hclock)
  others hconfined _ _ h hclock := by
    rw [World.ClockMonotone, hconfined.world.env] at hclock
    exact (h hclock).mono fun _ => hconfined.world.read
  turn hturn _ _ h hclock := by
    obtain ⟨henv, hle⟩ := hturn.env_queries
    rw [World.ClockMonotone, henv] at hclock
    refine (h hclock).mono fun time ⟨k, hk, htime⟩ => ⟨k, hk.trans_le hle, ?_⟩
    rw [← htime]
    exact congrArg (fun env => (env k).time) henv

/-- A candidate that is not replaced keeps its record when an address is received. -/
theorem exists_addCandidate (addr : PeerAddr) (mt : ManagedTorrent) :
    ∃ added, (addCandidate addr mt).peerLog = added ++ mt.peerLog ∧
      ∀ c ∈ mt.peerCandidates, .replaced c.addr ∉ added →
        c ∈ (addCandidate addr mt).peerCandidates := by
  rw [addCandidate]
  split
  case isTrue => exact ⟨[], rfl, fun c hc _ => hc⟩
  case isFalse =>
    split
    case isTrue =>
      cases replacedCandidate mt with
      | none => exact ⟨[], rfl, fun c hc _ => hc⟩
      | some slot =>
        dsimp only
        rw [replaceCandidate]
        cases hold : mt.peerCandidates[slot]? with
        | none => exact ⟨[], rfl, fun c hc _ => hc⟩
        | some old =>
          refine ⟨[.replaced old.addr], rfl, fun c hc hnot => ?_⟩
          refine Cooldowns.mem_modify_of_mem hold hc fun heq => hnot ?_
          rw [heq]
          exact List.mem_singleton_self _
    case isFalse => exact ⟨[], rfl, fun c hc _ => List.mem_append_left _ hc⟩

theorem exists_addCandidates (queue : List PeerAddr) (mt : ManagedTorrent) :
    let mt' := queue.foldl (fun mt addr => addCandidate addr mt) mt
    ∃ added, mt'.peerLog = added ++ mt.peerLog ∧
      ∀ c ∈ mt.peerCandidates, .replaced c.addr ∉ added → c ∈ mt'.peerCandidates := by
  induction queue generalizing mt with
  | nil => exact ⟨[], rfl, fun c hc _ => hc⟩
  | cons addr queue ih =>
    obtain ⟨first, hfirst, hkept⟩ := exists_addCandidate addr mt
    obtain ⟨rest, hrest, hkept'⟩ := ih (addCandidate addr mt)
    refine ⟨rest ++ first, ?_, fun c hc hnot => ?_⟩
    · rw [List.append_assoc, ← hfirst]
      exact hrest
    · rw [List.mem_append, not_or] at hnot
      exact hkept' c (hkept c hc hnot.2) hnot.1

variable {m : TorrentMgr}

/-- The delay after a failure grows with the number of failures in a row, up to
    300 seconds, and no connection to an address is attempted before the delay
    after each of its failures is over, unless a piece from it was verified in
    between or it was replaced as a candidate before; nor does a candidate that
    is received again, and not replaced, change. -/
theorem cooldown_of_reachable (hm : Reachable m) (hclock : m.ClockMonotone) (hmt : mt ∈ m.torrents) :
    Monotone retryDelay ∧ (∀ failures, retryDelay failures ≤ 300) ∧
    (∀ newer mid older addr time now,
      mt.peerLog = newer ++ .attempt addr now :: (mid ++ .failed addr time :: older) →
      .verified addr ∉ mid → .replaced addr ∉ mid ++ older →
        time + retryDelay (failuresInRow addr older + 1) ≤ now) ∧
    ∀ queue : List PeerAddr, let mt' := queue.foldl (fun mt addr => addCandidate addr mt) mt
      ∃ added, mt'.peerLog = added ++ mt.peerLog ∧
        ∀ c ∈ mt.peerCandidates, .replaced c.addr ∉ added → c ∈ mt'.peerCandidates := by
  have hcooled := invariant_cooled.reachable hm mt hmt hclock
  exact ⟨retryDelay_mono, retryDelay_le,
    fun newer mid older addr time now hlog hverified hreplaced =>
      hcooled.spaced.le hlog hverified hreplaced,
    fun queue => exists_addCandidates queue mt⟩

/-- A clock that goes on by 40 seconds each time it is read. -/
def tickingEnv : ℕ → Outcome := fun k => ⟨40 * k, true, .incomplete⟩

/-- A manager whose torrent has failed to connect to a peer and tries it again. -/
def retriedMgr : TorrentMgr :=
  (TorrentMgr.init (sysWith []) (fun _ => []) tickingEnv).run
    [.addRaw trackedTorrent (lit "/d") [], .start 0, .tick,
      .announce 7 (some ⟨false, 60, [⟨1, 2⟩]⟩), .tick, .peerConnectDone 0 none [], .tick]

theorem cooldown_of_reachable_retried : ∃ mt ∈ retriedMgr.torrents, ∃ time now,
    .failed ⟨1, 2⟩ time ∈ mt.peerLog ∧ .attempt ⟨1, 2⟩ now ∈ mt.peerLog ∧
      time + retryDelay 1 ≤ now := by
  have hclock : retriedMgr.ClockMonotone := by
    rw [World.ClockMonotone, retriedMgr, env_run]
    exact fun _ _ hle => Nat.mul_le_mul_left 40 hle
  have hretried : ∃ mt ∈ retriedMgr.torrents, mt.peerLog =
      [.attempt ⟨1, 2⟩ 800, .failed ⟨1, 2⟩ 720, .attempt ⟨1, 2⟩ 560] := by decide +kernel
  obtain ⟨mt, hmt, hlog⟩ := hretried
  have hspaced := (cooldown_of_reachable ⟨_, _, _, _, rfl⟩ hclock hmt).2.2.1
  refine ⟨mt, hmt, 720, 800, ?_, ?_, hspaced [] [] _ _ _ _ hlog ?_ ?_⟩
  · simp [hlog]
  · simp [hlog]
  · simp
  · simp

/-! ### A candidate that is replaced -/

/-- A torrent with two trackers. -/
def twoTrackersTorrent : Bytes :=
  lit "d8:announce8:http://t13:announce-listll8:http://uee4:infod6:lengthi3e4:name1:n12:piece lengthi2e6:pieces40:aaaaaaaaaaaaaaaaaaaabbbbbbbbbbbbbbbbbbbbee"

/-- The peers with the ports from `first` on. -/
def peersFrom (first n : ℕ) : List PeerAddr := (List.range n).map fun k => ⟨1, first + k⟩

/-- A manager whose torrent knows six peers, of which two have failed, when 195
    more peers and the first one are received. -/
def evictedMgr : TorrentMgr :=
  (TorrentMgr.init (sysWith []) (fun _ => []) calmEnv).run
    [.addRaw twoTrackersTorrent (lit "/d") [], .start 0, .tick,
      .announce 7 (some ⟨false, 60, peersFrom 1 6⟩), .tick,
      .peerConnectDone 0 none [], .peerConnectDone 1 none [], .tick,
      .announce 7 (some ⟨false, 60, peersFrom 7 195 ++ peersFrom 1 1⟩),
      .peerConnectDone 2 none [], .peerConnectDone 3 none [], .tick]

/-- The table is full, and the first peer was tried again after it had failed. -/
theorem full_evictedMgr : ∃ mt ∈ evictedMgr.torrents,
    (mt.peerLog = .attempt ⟨1, 1⟩ 1 ::
        ((mt.peerLog.drop 1).take 8 ++ .failed ⟨1, 1⟩ 1 :: mt.peerLog.drop 10) ∧
      .verified ⟨1, 1⟩ ∉ (mt.peerLog.drop 1).take 8) ∧
    mt.peerCandidates.length = 200 ∧ ∃ c ∈ mt.peerCandidates, c.failures = 1 := by
  decide +kernel

/-- A candidate that is replaced is forgotten with its failures: its peer is
    tried again at once when it is received again. -/
theorem exists_evictedMgr : Reachable evictedMgr ∧ evictedMgr.ClockMonotone ∧
    ∃ mt ∈ evictedMgr.torrents, ∃ newer mid older addr time now,
      mt.peerLog = newer ++ .attempt addr now :: (mid ++ .failed addr time :: older) ∧
      .verified addr ∉ mid ∧ now < time + retryDelay (failuresInRow addr older + 1) := by
  obtain ⟨mt, hmt, ⟨hlog, hverified⟩, -⟩ := full_evictedMgr
  have hclock : evictedMgr.ClockMonotone := by
    rw [World.ClockMonotone, evictedMgr, env_run]
    exact fun _ _ _ => le_rfl
  refine ⟨⟨_, _, _, _, rfl⟩, hclock, mt, hmt, [], _, _, _, _, _, hlog, hverified, ?_⟩
  have hdelay : retryDelay 1 ≤ retryDelay (failuresInRow ⟨1, 1⟩ (mt.peerLog.drop 10) + 1) :=
    retryDelay_mono (Nat.le_add_left _ _)
  exact Nat.lt_of_lt_of_le (by decide) (Nat.add_le_add_left hdelay 1)

end PS5Torrent
