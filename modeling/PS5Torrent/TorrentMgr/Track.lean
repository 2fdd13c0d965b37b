import PS5Torrent.TorrentMgr.Reach

/-!
# Following a torrent

A removal shifts the torrents above it. `TorrentMgr.position` and
`TorrentMgr.track` say where a torrent is after an event and after a run. A
record with a generation that was given out before is that of the torrent that
had it (`exists_origin`), and an event leaves a torrent alone that is neither
downloading nor started or stopped (`getElem?_step_of_idle`).
-/

namespace PS5Torrent

open Relation Work TorrentMgr

namespace TorrentMgr

/-- Where the torrent at an index is after an event, unless it is removed. -/
def position (m : TorrentMgr) (i : ℕ) : Event → Option ℕ
  | .remove index =>
    if index < 0 ∨ index ≥ m.torrents.length then some i
    else if index.toNat < i then some (i - 1)
    else if index.toNat = i then none
    else some i
  | _ => some i

/-- Where the torrent at an index is after a run, unless it is removed. -/
def track (m : TorrentMgr) (i : ℕ) : List Event → Option ℕ
  | [] => some i
  | event :: events => (m.position i event).bind fun j => (m.step event).track j events

/-- The torrents are where they were: a record of an old generation is that of its torrent. -/
structure Keeps (m m' : TorrentMgr) : Prop where
  nextGeneration : m.nextGeneration ≤ m'.nextGeneration
  origin : ∀ (k : ℕ) (mt' : ManagedTorrent), m'.torrents[k]? = some mt' →
    mt'.generation < m.nextGeneration →
      ∃ mt : ManagedTorrent, m.torrents[k]? = some mt ∧ mt.generation = mt'.generation

end TorrentMgr

variable {m m' m'' : TorrentMgr} {mt mt' : ManagedTorrent} {i k : ℕ} {event : Event}

theorem position_of_ne_remove (hevent : ∀ index, event ≠ .remove index) :
    m.position i event = some i := by
  cases event with
  | remove index => exact absurd rfl (hevent index)
  | _ => rfl

/-! ## Where torrents come from -/

theorem TorrentMgr.Keeps.refl (m : TorrentMgr) : m.Keeps m where
  nextGeneration := le_rfl
  origin _ mt' hmt' _ := ⟨mt', hmt', rfl⟩

theorem TorrentMgr.Keeps.trans (h : m.Keeps m') (h' : m'.Keeps m'') : m.Keeps m'' where
  nextGeneration := h.nextGeneration.trans h'.nextGeneration
  origin k mt'' hmt'' hlt := by
    obtain ⟨mt', hmt', hgen'⟩ := h'.origin k mt'' hmt'' (hlt.trans_le h.nextGeneration)
    obtain ⟨mt, hmt, hgen⟩ := h.origin k mt' hmt' (hgen' ▸ hlt)
    exact ⟨mt, hmt, hgen.trans hgen'⟩

theorem TorrentMgr.Stay.keeps (h : Stay m m') (hsound : m.Sound) : m.Keeps m' := by
  obtain ⟨hmove, hlength⟩ := h
  cases hmove with
  | @op i mt w hmt hop =>
    have hgeneration := (hop.confined (hsound.torrents mt (List.mem_of_getElem? hmt))).generation
    refine ⟨?_, fun k mt' hmt' hlt => ?_⟩
    · rcases hgeneration with ⟨-, hnext⟩ | ⟨-, hnext⟩
      · exact hnext.ge
      · exact hnext ▸ Nat.le_succ _
    · rw [List.getElem?_set] at hmt'
      split at hmt'
      case isTrue hik =>
        subst hik
        split at hmt'
        · obtain rfl := Option.some.inj hmt'
          rcases hgeneration with ⟨hgen, -⟩ | ⟨hgen, -⟩
          · exact ⟨mt, hmt, hgen.symm⟩
          · exact absurd hgen hlt.ne
        · cases hmt'
      case isFalse => exact ⟨mt', hmt', rfl⟩
  | turn hturn => exact ⟨hturn.inherits.nextGeneration.ge, fun _ mt' hmt' _ => ⟨mt', hmt', rfl⟩⟩
  | @add mt hadded hroom =>
    refine ⟨Nat.le_succ _, fun k mt' hmt' hlt => ?_⟩
    dsimp only at hmt'
    rw [List.getElem?_append] at hmt'
    split at hmt'
    · exact ⟨mt', hmt', rfl⟩
    · obtain ⟨_, _, _, _, _, rfl, -⟩ := hadded
      rw [List.getElem?_singleton] at hmt'
      split at hmt'
      · obtain rfl := Option.some.inj hmt'
        exact absurd rfl hlt.ne
      · cases hmt'
  | @remove i mt hmt =>
    have hlt := (List.getElem?_eq_some_iff.1 hmt).1
    rw [List.length_eraseIdx_of_lt hlt] at hlength
    omega

theorem TorrentMgr.Stays.keeps (h : Stays m m') (hsound : m.Sound) : m.Keeps m' := by
  have hboth : m'.Sound ∧ m.Keeps m' := by
    induction h with
    | refl => exact ⟨hsound, .refl m⟩
    | tail _ hstay ih => exact ⟨hstay.1.sound ih.1, ih.2.trans (hstay.keeps ih.1)⟩
  exact hboth.2

/-- A record after an event, of a generation that was given out before, is that of the torrent
    that had the generation. -/
theorem exists_origin (hm : Reachable m) (hmt' : (m.step event).torrents[k]? = some mt')
    (hlt : mt'.generation < m.nextGeneration) :
    ∃ i mt, m.torrents[i]? = some mt ∧ m.position i event = some k ∧
      mt.generation = mt'.generation := by
  have hsound := sound_of_reachable hm
  by_cases hevent : ∃ index, event = .remove index
  · obtain ⟨index, rfl⟩ := hevent
    have hkeeps := (stays_torrentMgrStop (m := m) index).keeps hsound
    rw [step, torrentMgrRemove] at hmt'
    split at hmt'
    case isTrue hindex => exact ⟨k, mt', hmt', if_pos hindex, rfl⟩
    case isFalse hindex =>
      dsimp only at hmt'
      rw [List.getElem?_eraseIdx] at hmt'
      split at hmt'
      case isTrue hk =>
        obtain ⟨mt, hmt, hgen⟩ := hkeeps.origin k mt' hmt' hlt
        refine ⟨k, mt, hmt, ?_, hgen⟩
        rw [position, if_neg hindex, if_neg (by omega), if_neg (by omega)]
      case isFalse hk =>
        obtain ⟨mt, hmt, hgen⟩ := hkeeps.origin (k + 1) mt' hmt' hlt
        refine ⟨k + 1, mt, hmt, ?_, hgen⟩
        rw [position, if_neg hindex, if_pos (by omega), Nat.add_sub_cancel]
  · rw [not_exists] at hevent
    have hstays := stays_step hsound (invariant_timed.reachable hm) hevent
    obtain ⟨mt, hmt, hgen⟩ := (hstays.keeps hsound).origin k mt' hmt' hlt
    exact ⟨k, mt, hmt, position_of_ne_remove hevent, hgen⟩

/-! ## What a run leads to -/

theorem Reachable.step (hm : Reachable m) (event : Event) : Reachable (m.step event) := by
  obtain ⟨sys, strerror, env, events, rfl⟩ := hm
  refine ⟨sys, strerror, env, events ++ [event], ?_⟩
  rw [run, run, List.foldl_append, List.foldl_cons, List.foldl_nil]

theorem Reachable.run (hm : Reachable m) (events : List Event) : Reachable (m.run events) := by
  induction events generalizing m with
  | nil => exact hm
  | cons event events ih => exact ih (hm.step event)

/-- There are never more torrents than there is room for. -/
theorem length_torrents_le (hm : Reachable m) : m.torrents.length ≤ MAX_TORRENTS := by
  refine hm.induction (P := fun m => m.torrents.length ≤ MAX_TORRENTS) (fun _ _ _ => Nat.zero_le _)
    fun _ hmove ih => ?_
  cases hmove with
  | op => rwa [List.length_set]
  | turn => exact ih
  | add _ hroom =>
    rw [List.length_append, List.length_singleton]
    exact hroom
  | remove => exact (List.eraseIdx_sublist _ _).length_le.trans ih

/-! ## Torrents that are left alone -/

/-- Collecting does not touch a torrent that is not downloading. -/
theorem getElem?_onLive (hmt : m.torrents[k]? = some mt) (hstate : mt.state ≠ .downloading)
    (generation : ℕ) (f : Work → Work) : (m.onLive generation f).torrents[k]? = some mt := by
  rw [onLive]
  cases hlive : m.live generation with
  | none => exact hmt
  | some i =>
    obtain ⟨mt', hmt', -, hstate'⟩ := live_eq_some hlive
    have hik : i ≠ k := by
      rintro rfl
      rw [hmt, Option.some.injEq] at hmt'
      exact hstate (hmt' ▸ hstate')
    exact (getElem?_onTorrent_of_ne hik).trans hmt

theorem getElem?_collectWebSeedJob_of_idle (slot : ℕ) (hmt : m.torrents[k]? = some mt)
    (hstate : mt.state ≠ .downloading) : (m.collectWebSeedJob slot).torrents[k]? = some mt := by
  rw [collectWebSeedJob]
  cases m.webSeedJobs[slot]?.join with
  | none => exact hmt
  | some job =>
    dsimp only
    split
    · exact hmt
    · exact getElem?_onLive hmt hstate _ _

theorem getElem?_collectPeerConnectJob_of_idle (slot : ℕ) (hmt : m.torrents[k]? = some mt)
    (hstate : mt.state ≠ .downloading) : (m.collectPeerConnectJob slot).torrents[k]? = some mt := by
  rw [collectPeerConnectJob]
  cases m.peerConnectJobs[slot]?.join with
  | none => exact hmt
  | some job =>
    dsimp only
    split
    · exact hmt
    · exact getElem?_onLive hmt hstate _ _

theorem getElem?_collectDiscoveryJob_of_idle (slot : ℕ) (hmt : m.torrents[k]? = some mt)
    (hstate : mt.state ≠ .downloading) : (m.collectDiscoveryJob slot).torrents[k]? = some mt := by
  rw [collectDiscoveryJob]
  cases m.discoveryJobs[slot]?.join with
  | none => exact hmt
  | some job =>
    dsimp only
    have hqueue := getElem?_onLive hmt hstate job.result.generation fun w =>
      { w with mt := job.queue.foldl (fun mt addr => addCandidate addr mt) w.mt }
    split
    · exact hqueue
    · exact getElem?_onLive hqueue hstate _ _

/-- What each turn of a loop leaves alone, the loop does. -/
theorem getElem?_foldl {f : TorrentMgr → ℕ → TorrentMgr}
    (hf : ∀ m i, m.torrents[k]? = some mt → (f m i).torrents[k]? = some mt)
    (hmt : m.torrents[k]? = some mt) (is : List ℕ) : (is.foldl f m).torrents[k]? = some mt := by
  induction is generalizing m with
  | nil => exact hmt
  | cons i is ih => exact ih (hf m i hmt)

theorem tickTorrent_of_idle (now : ℕ) {w : Work} (hstate : w.mt.state ≠ .downloading) :
    tickTorrent now w = w := by
  rw [tickTorrent, if_pos hstate]

theorem getElem?_collect_of_idle (hmt : m.torrents[k]? = some mt) (hstate : mt.state ≠ .downloading) :
    m.collectWebSeed.collectDiscovery.collectPeerConnections.torrents[k]? = some mt := by
  rw [collectPeerConnections, collectDiscovery, collectWebSeed]
  refine getElem?_foldl (fun m i h => getElem?_collectPeerConnectJob_of_idle i h hstate) ?_ _
  refine getElem?_foldl (fun m i h => getElem?_collectDiscoveryJob_of_idle i h hstate) ?_ _
  exact getElem?_foldl (fun m i h => getElem?_collectWebSeedJob_of_idle i h hstate) hmt _

/-- A tick does not touch a torrent that is not downloading. -/
theorem getElem?_torrentMgrTick_of_idle (hmt : m.torrents[k]? = some mt)
    (hstate : mt.state ≠ .downloading) : m.torrentMgrTick.2.torrents[k]? = some mt := by
  have hcollect := getElem?_collect_of_idle hmt hstate
  rw [torrentMgrTick]
  generalize m.collectWebSeed.collectDiscovery.collectPeerConnections = m₁ at hcollect
  dsimp only
  rw [tickTorrents]
  refine getElem?_foldl (fun m i hmt => ?_) (by exact hcollect) _
  by_cases hik : i = k
  · subst hik
    rw [onTorrent_eq hmt, tickTorrent_of_idle _ hstate]
    exact List.getElem?_set_self (List.getElem?_eq_some_iff.1 hmt).1
  · exact (getElem?_onTorrent_of_ne hik).trans hmt

/-- A removal leaves the records of the other torrents as they are. -/
theorem getElem?_torrentMgrRemove (hmt : m.torrents[i]? = some mt) {index : ℤ}
    (hposition : m.position i (.remove index) = some k) :
    (m.torrentMgrRemove index).torrents[k]? = some mt := by
  rw [torrentMgrRemove]
  rw [position] at hposition
  split at hposition
  case isTrue hindex =>
    obtain rfl := Option.some.inj hposition
    rw [if_pos hindex]
    exact hmt
  case isFalse hindex =>
    rw [if_neg hindex]
    dsimp only
    rw [torrentMgrStop, if_neg hindex, List.getElem?_eraseIdx]
    split at hposition
    case isTrue hlt =>
      obtain rfl := Option.some.inj hposition
      rw [if_neg (by omega), Nat.sub_add_cancel (by omega), getElem?_onTorrent_of_ne (by omega)]
      exact hmt
    case isFalse hge =>
      split at hposition
      · cases hposition
      · obtain rfl := Option.some.inj hposition
        rw [if_pos (by omega), getElem?_onTorrent_of_ne (by omega)]
        exact hmt

theorem getElem?_torrentMgrAdd (hmt : m.torrents[i]? = some mt) (t : Torrent) (savePath : Bytes)
    (isMagnet : Bool) (magnetUri peerId : Bytes) :
    (m.torrentMgrAdd t savePath isMagnet magnetUri peerId).2.torrents[i]? = some mt := by
  rw [torrentMgrAdd]
  split
  · exact hmt
  · exact (List.getElem?_append_left (List.getElem?_eq_some_iff.1 hmt).1).trans hmt

theorem torrents_announceNext (slot : ℕ) (response : Option TrackerResponse) :
    (m.announceNext slot response).torrents = m.torrents := by
  rw [announceNext]
  cases m.discoveryJobs[slot]?.join with
  | none => rfl
  | some job =>
    dsimp only
    split
    · rfl
    · split <;> rfl

/-- An event leaves a torrent alone that is not downloading, unless it starts or stops it. -/
theorem getElem?_step_of_idle (hmt : m.torrents[i]? = some mt) (hstate : mt.state ≠ .downloading)
    (hposition : m.position i event = some k) (hstart : event ≠ .start i) (hstop : event ≠ .stop i) :
    (m.step event).torrents[k]? = some mt := by
  cases event with
  | remove index => exact getElem?_torrentMgrRemove hmt hposition
  | addRaw data savePath peerId =>
    obtain rfl := Option.some.inj hposition
    rw [step]
    split
    · rw [torrentMgrAddRaw]
      cases torrentParse data with
      | none => exact hmt
      | some t => exact getElem?_torrentMgrAdd hmt _ _ _ _ _
    · exact hmt
  | addMagnet infoHash name trackers uri savePath peerId =>
    obtain rfl := Option.some.inj hposition
    exact getElem?_torrentMgrAdd hmt _ _ _ _ _
  | start index =>
    obtain rfl := Option.some.inj hposition
    rw [step, torrentMgrStart]
    split
    · exact hmt
    · have hindex : index.toNat ≠ i := by
        rintro rfl
        exact hstart (by rw [Int.toNat_of_nonneg (by omega)])
      cases m.torrents[index.toNat]? with
      | none => exact hmt
      | some mt' => exact (getElem?_onTorrent_of_ne hindex).trans hmt
  | stop index =>
    obtain rfl := Option.some.inj hposition
    rw [step, torrentMgrStop]
    split
    · exact hmt
    · have hindex : index.toNat ≠ i := by
        rintro rfl
        exact hstop (by rw [Int.toNat_of_nonneg (by omega)])
      exact (getElem?_onTorrent_of_ne hindex).trans hmt
  | tick =>
    obtain rfl := Option.some.inj hposition
    exact getElem?_torrentMgrTick_of_idle hmt hstate
  | announce slot response =>
    obtain rfl := Option.some.inj hposition
    rw [step, torrents_announceNext]
    exact hmt
  | webSeedDone | peerConnectDone | discoveryDone =>
    obtain rfl := Option.some.inj hposition
    exact hmt

end PS5Torrent
