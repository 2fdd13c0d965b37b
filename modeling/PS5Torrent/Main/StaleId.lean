import PS5Torrent.Main.Action

/-!
# Ids that clients have read

A client learns from `/api/torrents` that a torrent has an id, its index, and
asks later for a call on this id. In between, other requests are served, and
the torrents may have moved: the call is applied to the torrent that the client
means, or to none, exactly if no torrent up to it was removed or there are no
longer as many torrents (`applied_iff`).
-/

namespace PS5Torrent

open TorrentMgr Decimal

variable {c : Console} {req : HttpRequest} {m : TorrentMgr} {a : Action} {i k n : ℕ} {event : Event}
  {events : List Event}

namespace TorrentMgr

/-- The torrent that a request to act is applied to. -/
def actedOn (m : TorrentMgr) (req : HttpRequest) : Option ℕ :=
  if req.method ≠ .post then none
  else
    match readId (-1) ((cstr req.path).drop 14) with
    | (id, p) =>
      if id < 0 ∨ p.head? ≠ some (chr '/') ∨ Action.ofName (strncpy 16 p.tail) = none ∨
          id ≥ m.torrents.length then none
      else some id.toNat

/-- No torrent with an index up to `n` is removed in a run. -/
def NoneRemovedUpTo (m : TorrentMgr) (n : ℕ) : List Event → Prop
  | [] => True
  | event :: events =>
    (∀ index : ℤ, event = .remove index → 0 ≤ index → index < m.torrents.length → n < index) ∧
      (m.step event).NoneRemovedUpTo n events

end TorrentMgr

/-! ## What a request is applied to -/

/-- The handler calls the manager for this torrent, or changes nothing. -/
theorem handleApiAction_actedOn (c : Console) (req : HttpRequest) (m : TorrentMgr) :
    match m.actedOn req with
    | none => (handleApiAction c req m).2 = m
    | some k => k < m.torrents.length ∧ ∃ a, (handleApiAction c req m).2 = (m.act k a).2 := by
  rw [actedOn, handleApiAction]
  split_ifs with hmethod
  · rfl
  · generalize readId (-1) ((cstr req.path).drop 14) = r
    obtain ⟨id, p⟩ := r
    dsimp only
    cases hof : Action.ofName (strncpy 16 p.tail) with
    | none =>
      rw [if_pos (.inr (.inr (.inl rfl)))]
      dsimp only
      split
      · rfl
      · rfl
    | some a =>
      by_cases hvalid : id < 0 ∨ p.head? ≠ some (chr '/')
      · rw [if_pos hvalid, if_pos (by tauto)]
      · rw [if_neg hvalid]
        rw [not_or] at hvalid
        have hspec := (respond_spec c m id a).1
        rw [respond, ← Action.ofName_eq_some hof] at hspec
        by_cases hlt : id ≥ m.torrents.length
        · rw [if_pos (.inr (.inr (.inr hlt)))]
          exact hspec.trans (act_of_invalid (.inr hlt) a).1
        · rw [if_neg (by simp only [reduceCtorEq]; tauto)]
          refine ⟨by omega, a, ?_⟩
          rw [Int.toNat_of_nonneg (by omega)]
          exact hspec

theorem actedOn_of_path (hpost : req.method = .post)
    (hpath : cstr req.path = actionPath (print n) a.name) (hn : n < 2 ^ 31) :
    m.actedOn req = if n < m.torrents.length then some n else none := by
  have hdigits : IsNumeral (print n) := ⟨print_ne_nil n, fun b => isDigit_of_mem_print⟩
  rw [actedOn, if_neg (not_not.2 hpost), hpath, readId_actionPath _ hdigits, wrappedId_print hn]
  dsimp only
  rw [List.tail_cons, strncpy_name, Action.ofName_name, List.head?_cons]
  by_cases hlt : n < m.torrents.length
  · rw [if_pos hlt, if_neg (by simp; omega), Int.toNat_natCast]
  · rw [if_neg hlt, if_pos (by simp; omega)]

/-! ## Where the torrent is -/

theorem position_le (h : m.position i event = some k) : k ≤ i := by
  cases event with
  | remove index =>
    rw [position] at h
    split at h
    · exact (Option.some.inj h).ge
    · split at h
      · obtain rfl := Option.some.inj h
        exact Nat.sub_le i 1
      · split at h
        · cases h
        · exact (Option.some.inj h).ge
  | _ => exact (Option.some.inj h).ge

theorem track_le (h : m.track i events = some k) : k ≤ i := by
  induction events generalizing m i with
  | nil => exact (Option.some.inj h).ge
  | cons event events ih =>
    obtain ⟨j, hj, htrack⟩ := Option.bind_eq_some_iff.1 h
    exact (ih htrack).trans (position_le hj)

/-- A torrent keeps its index, unless one up to it is removed. -/
theorem position_eq_self_iff : m.position n event = some n ↔
    ∀ index : ℤ, event = .remove index → 0 ≤ index → index < m.torrents.length → n < index := by
  cases event with
  | remove index =>
    rw [position]
    constructor
    · rintro h _ ⟨⟩ hl hu
      rw [if_neg (by omega)] at h
      split at h
      · have hsub := Option.some.inj h
        omega
      · split at h
        · cases h
        · omega
    · intro h
      have hindex := h index rfl
      split
      · rfl
      · rw [if_neg (by omega), if_neg (by omega)]
  | _ => exact iff_of_true rfl (by simp)

theorem track_eq_self_iff : m.track n events = some n ↔ m.NoneRemovedUpTo n events := by
  induction events generalizing m with
  | nil => exact iff_of_true rfl trivial
  | cons event events ih =>
    rw [NoneRemovedUpTo, ← position_eq_self_iff, ← ih, track]
    constructor
    · intro h
      obtain ⟨j, hj, htrack⟩ := Option.bind_eq_some_iff.1 h
      obtain rfl : j = n := le_antisymm (position_le hj) (track_le htrack)
      exact ⟨hj, htrack⟩
    · rintro ⟨hposition, htrack⟩
      rw [hposition]
      exact htrack

/-! ## Stale ids -/

/-- A client has read that a torrent has the id `n`, and asks for a call on this id after a run:
    the call is applied to this torrent or to none exactly if no torrent up to it was removed, or
    there are no longer as many torrents. -/
theorem applied_iff (hm : Reachable m) (hn : n < m.torrents.length) (hpost : req.method = .post)
    (hpath : cstr req.path = actionPath (print n) a.name) (events : List Event) :
    (∀ k, (m.run events).actedOn req = some k → m.track n events = some k) ↔
      m.NoneRemovedUpTo n events ∨ (m.run events).torrents.length ≤ n := by
  have hcount := length_torrents_le hm
  rw [MAX_TORRENTS] at hcount
  rw [actedOn_of_path hpost hpath (by omega), ← track_eq_self_iff]
  by_cases hlt : n < (m.run events).torrents.length
  · rw [if_pos hlt, or_iff_left (not_le.2 hlt)]
    simp
  · rw [if_neg hlt]
    exact iff_of_true (by simp) (.inr (not_lt.1 hlt))

/-! ### A second click -/

/-- A manager with two torrents from magnet links. -/
def twoMgr : TorrentMgr :=
  emptyMgr.run [.addMagnet [] none [] [] [] [], .addMagnet [] none [] [] [] []]

theorem reachable_twoMgr : Reachable twoMgr := reachable_emptyMgr.run _

def removeFirst : HttpRequest := postRequest (lit "/api/torrents/0/remove") []

theorem path_removeFirst : cstr removeFirst.path = actionPath (print 0) (Action.name .remove) := by
  decide

/-- Another torrent is removed in between, and the first one stopped. -/
theorem applied_twoMgr :
    (twoMgr.run [.remove 1]).actedOn (postRequest (lit "/api/torrents/0/stop") []) = some 0 ∧
      twoMgr.track 0 [.remove 1] = some 0 := by
  have hacted : (twoMgr.run [.remove 1]).actedOn (postRequest (lit "/api/torrents/0/stop") []) =
      some 0 := by decide +kernel
  refine ⟨hacted, ?_⟩
  exact (applied_iff (a := .stop) reachable_twoMgr (by decide +kernel) (by decide) (by decide)
    [.remove 1]).2 (.inl ⟨by simp, trivial⟩) 0 hacted

/-- A repeated request to remove the first torrent removes the second one. -/
theorem not_applied_twice :
    Reachable twoMgr ∧ (handleApiAction plainConsole removeFirst twoMgr).2 = twoMgr.run [.remove 0] ∧
      ¬∀ k, (twoMgr.run [.remove 0]).actedOn removeFirst = some k →
        twoMgr.track 0 [.remove 0] = some k := by
  refine ⟨reachable_twoMgr, ?_, fun h => ?_⟩
  · have hid : wrappedId (print 0) = (0 : ℕ) := wrappedId_print (by decide)
    rw [handleApiAction_of_path (by decide) ⟨print_ne_nil 0, fun b => isDigit_of_mem_print⟩
      path_removeFirst hid.ge, hid]
    rfl
  · have htrack := h 0 (by decide +kernel)
    revert htrack
    decide +kernel

end PS5Torrent
