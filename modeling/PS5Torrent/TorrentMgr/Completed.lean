import PS5Torrent.TorrentMgr.Track
import PS5Torrent.TorrentMgr.Holders

/-!
# Downloads that are complete

A torrent that is done is left alone by ticks, and a start only clears its
error. A stop changes its state, and a later start then drops the pieces and
opens the file anew. As long as each start finds the torrent done, the pieces
stay complete and no call on the torrent touches a file (`kept_of_startsDone`).
-/

namespace PS5Torrent

open Sha1 Work TorrentMgr

/-- What is kept of a torrent that was done: no complete piece goes missing. -/
structure ManagedTorrent.Kept (mt mt' : ManagedTorrent) : Prop where
  state : mt'.state = .done ∨ mt'.state = .stopped
  pieces : mt.pieceMgr.SameComplete mt'.pieceMgr

/-- `mt->error_type = TERR_NONE; mt->error_msg[0] = '\0'` -/
def ManagedTorrent.clearError (mt : ManagedTorrent) : ManagedTorrent :=
  { mt with errorType := .none, errorMsg := [] }

namespace TorrentMgr

/-- No call on the torrent at an index touches a file: no job is collected for it, its part of a
    tick does nothing, a stop only changes its record, and a start nothing but the error in it
    if it is done. -/
structure LeavesFiles (m : TorrentMgr) (k : ℕ) : Prop where
  collect : ∀ generation, m.live generation ≠ some k
  tick : ∀ now, m.onTorrent k (tickTorrent now) = m
  stop : (m.torrentMgrStop k).sys = m.sys
  start : ∀ mt : ManagedTorrent, m.torrents[k]? = some mt → mt.state = .done →
    m.torrentMgrStart k = (true, { m with torrents := m.torrents.set k mt.clearError })

/-- In a run, each start of the torrent at an index finds it done. -/
def StartsDone (m : TorrentMgr) (i : ℕ) : List Event → Prop
  | [] => True
  | event :: events =>
    (event = .start i → ∀ mt ∈ m.torrents[i]?, mt.state = .done) ∧
      ∀ k ∈ m.position i event, (m.step event).StartsDone k events

end TorrentMgr

variable {m : TorrentMgr} {mt mt' : ManagedTorrent} {i k : ℕ} {event : Event}

theorem ManagedTorrent.Kept.idle (h : mt.Kept mt') : mt'.state ≠ .downloading := by
  rcases h.state with hstate | hstate
  · rw [hstate]
    exact TorrentState.noConfusion
  · rw [hstate]
    exact TorrentState.noConfusion

/-! ## One call -/

theorem sameComplete_stopTorrent (w : Work) :
    w.mt.pieceMgr.SameComplete (stopTorrent w).mt.pieceMgr := by
  have hdisconnect (w : Work) : w.mt.pieceMgr.SameComplete (disconnectPeers w).mt.pieceMgr := by
    rw [disconnectPeers]
    generalize List.range w.mt.peers.length = is
    induction is generalizing w with
    | nil => exact .refl _
    | cons i is ih => exact (sameComplete_disconnectPeer i w).trans (ih _)
  exact hdisconnect (renewTorrent w)

/-- A call with the index of a torrent finds the torrent. -/
theorem index_of_getElem? (hmt : m.torrents[i]? = some mt) :
    ¬((i : ℤ) < 0 ∨ (i : ℤ) ≥ m.torrents.length) := by
  have hlt := (List.getElem?_eq_some_iff.1 hmt).1
  omega

theorem torrentMgrStop_eq (hmt : m.torrents[i]? = some mt) :
    m.torrentMgrStop i = m.onTorrent i stopTorrent := by
  rw [torrentMgrStop, if_neg (index_of_getElem? hmt), Int.toNat_natCast]

/-- Starting a torrent that is done clears its error. -/
theorem torrentMgrStart_of_done (hmt : m.torrents[i]? = some mt) (hdone : mt.state = .done) :
    m.torrentMgrStart i = (true, { m with torrents := m.torrents.set i mt.clearError }) := by
  have hstart : startTorrent ⟨m.toWorld, mt⟩ = (true, ⟨m.toWorld, mt.clearError⟩) := by
    rw [startTorrent, if_pos (.inr (.inr hdone))]
    rfl
  rw [torrentMgrStart, if_neg (index_of_getElem? hmt), Int.toNat_natCast, hmt]
  dsimp only
  rw [onTorrent_eq hmt, hstart]

/-- No call touches the files of a torrent that is not downloading and not started anew. -/
theorem leavesFiles (hmt : m.torrents[k]? = some mt) (hidle : mt.state ≠ .downloading) :
    m.LeavesFiles k where
  collect generation hlive := by
    obtain ⟨mt', hmt', -, hstate⟩ := live_eq_some hlive
    rw [hmt, Option.some.injEq] at hmt'
    exact hidle (hmt' ▸ hstate)
  tick now := by
    obtain ⟨hlt, hget⟩ := List.getElem?_eq_some_iff.1 hmt
    rw [onTorrent_eq hmt, tickTorrent_of_idle now hidle]
    dsimp only
    rw [← hget, List.set_getElem_self]
  stop := by
    obtain ⟨queries, bytes, releases, pm, -, hstop⟩ := stopTorrent_eq ⟨m.toWorld, mt⟩
    rw [torrentMgrStop_eq hmt, onTorrent_eq hmt, hstop]
  start mt' hmt' hdone := torrentMgrStart_of_done hmt' hdone

/-- A download that is complete stays so in each event but a start that finds it stopped. -/
theorem kept_step (hmt : m.torrents[i]? = some mt') (hkept : mt.Kept mt')
    (hstart : event = .start i → mt'.state = .done) (hposition : m.position i event = some k) :
    ∃ mt'', (m.step event).torrents[k]? = some mt'' ∧ mt.Kept mt'' := by
  have hlt := (List.getElem?_eq_some_iff.1 hmt).1
  by_cases hevent : event = .start i
  · have hdone := hstart hevent
    subst hevent
    obtain rfl := Option.some.inj hposition
    refine ⟨mt'.clearError, ?_, .inl hdone, hkept.pieces⟩
    rw [step, torrentMgrStart_of_done hmt hdone]
    exact List.getElem?_set_self hlt
  · by_cases hstop : event = .stop i
    · subst hstop
      obtain rfl := Option.some.inj hposition
      refine ⟨(stopTorrent ⟨m.toWorld, mt'⟩).mt, ?_, .inr ?_,
        hkept.pieces.trans (sameComplete_stopTorrent ⟨m.toWorld, mt'⟩)⟩
      · rw [step, torrentMgrStop_eq hmt, onTorrent_eq hmt]
        exact List.getElem?_set_self hlt
      · obtain ⟨queries, bytes, releases, pm, -, heq⟩ := stopTorrent_eq ⟨m.toWorld, mt'⟩
        rw [heq]
    · exact ⟨mt', getElem?_step_of_idle hmt hkept.idle hposition hevent hstop, hkept⟩

/-! ## A run -/

theorem kept_run {events : List Event} (hmt : m.torrents[i]? = some mt') (hkept : mt.Kept mt')
    (hstarts : m.StartsDone i events) (htrack : m.track i events = some k) :
    ∃ mt'', (m.run events).torrents[k]? = some mt'' ∧ mt.Kept mt'' := by
  induction events generalizing m i mt' with
  | nil =>
    obtain rfl := Option.some.inj htrack
    exact ⟨mt', hmt, hkept⟩
  | cons event events ih =>
    obtain ⟨j, hposition, htrack⟩ := Option.bind_eq_some_iff.1 htrack
    obtain ⟨mt'', hmt'', hkept'⟩ := kept_step hmt hkept (fun h => hstarts.1 h mt' hmt) hposition
    exact ih hmt'' hkept' (hstarts.2 j hposition) htrack

/-- In every run in which each start of a torrent that is done finds it done, the torrent keeps
    all its complete pieces, and no call on it touches a file. -/
theorem kept_of_startsDone {events : List Event} (hmt : m.torrents[i]? = some mt)
    (hdone : mt.state = .done) (hstarts : m.StartsDone i events)
    (htrack : m.track i events = some k) :
    ∃ mt', (m.run events).torrents[k]? = some mt' ∧ mt.Kept mt' ∧ (m.run events).LeavesFiles k := by
  obtain ⟨mt', hmt', hkept⟩ := kept_run hmt ⟨.inl hdone, .refl _⟩ hstarts htrack
  exact ⟨mt', hmt', hkept, leavesFiles hmt' hkept.idle⟩

/-! ### A download that is done -/

/-- A torrent with a web seed, of the one piece `xy`. -/
def seededTorrent : Bytes :=
  lit "d4:infod6:lengthi2e4:name1:n12:piece lengthi2e6:pieces20:" ++ sha1Hash (lit "xy") ++
    lit "e8:url-list10:http://t/ne"

/-- A network with one server, which sends the piece. -/
def pieceNet : Net where
  resolve _ := some 1
  exchange _ _ _ _ := some [lit "HTTP/1.1 206 P\r\n\r\n", lit "xy"]

/-- A manager with a torrent that is done. -/
def doneMgr : TorrentMgr :=
  (TorrentMgr.init (sysWith []) (fun _ => []) calmEnv).run
    [.addRaw seededTorrent (lit "/d") [], .start 0, .tick, .webSeedDone 0 pieceNet, .tick, .tick]

theorem reachable_doneMgr : Reachable doneMgr := ⟨_, _, _, _, rfl⟩

theorem exists_doneMgr : ∃ mt ∈ doneMgr.torrents[0]?, mt.state = .done ∧ mt.isMagnet = false ∧
    mt.pieceMgr.state 0 = some .complete ∧ mt.downloaded = 2 := by decide +kernel

/-- The bytes that are counted are those of the complete piece. -/
theorem pieces_of_reachable_done : ∃ mt ∈ doneMgr.torrents,
    mt.pieceMgr.state 0 = some .complete ∧ mt.downloaded = 2 ∧
      mt.downloaded =
        ∑ i ∈ mt.pieceMgr.completePieces mt.torrent, torrentPieceSize mt.torrent i := by
  obtain ⟨mt, hmt, -, hfile, hpiece, hdownloaded⟩ := exists_doneMgr
  have hmem := List.mem_of_getElem? hmt
  exact ⟨mt, hmem, hpiece, hdownloaded, (pieces_of_reachable reachable_doneMgr hmem hfile).2.2.1⟩

/-- A start and a stop leave the download complete. -/
theorem kept_of_startsDone_startStop :
    ∃ mt mt', doneMgr.torrents[0]? = some mt ∧
      (doneMgr.run [.start 0, .stop 0, .tick]).torrents[0]? = some mt' ∧ mt.Kept mt' := by
  obtain ⟨mt, hmt, hdone, -⟩ := exists_doneMgr
  generalize doneMgr = m at hmt
  have hstarts : m.StartsDone 0 [.start 0, .stop 0, .tick] := by
    refine ⟨fun _ mt' hmt' => ?_,
      fun k hk => ⟨fun h => ?_, fun k hk => ⟨fun h => ?_, fun k hk => ?_⟩⟩⟩
    · rw [Option.mem_def.1 hmt, Option.mem_def, Option.some.injEq] at hmt'
      exact hmt' ▸ hdone
    · cases h
    · cases h
    · trivial
  obtain ⟨mt', hmt', hkept, -⟩ := kept_of_startsDone hmt hdone hstarts rfl
  exact ⟨mt, mt', hmt, hmt', hkept⟩

/-- A stop and a start make the complete piece missing, and truncate the file. -/
theorem not_kept_stopStart :
    Reachable doneMgr ∧ doneMgr.track 0 [.stop 0, .start 0] = some 0 ∧
      ∃ mt ∈ doneMgr.torrents[0]?, ∃ mt' ∈ (doneMgr.run [.stop 0, .start 0]).torrents[0]?,
        mt.state = .done ∧ mt.pieceMgr.state 0 = some .complete ∧
        mt'.pieceMgr.state 0 = some .free ∧
        doneMgr.sys.fs.content [lit "d", lit "n"] = some (lit "xy") ∧
        (doneMgr.run [.stop 0, .start 0]).sys.fs.content [lit "d", lit "n"] = some [] := by
  refine ⟨reachable_doneMgr, rfl, ?_⟩
  decide +kernel

end PS5Torrent
