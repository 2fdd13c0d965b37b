import PS5Torrent.TorrentMgr.Track
import PS5Torrent.TorrentMgr.Completed
import PS5Torrent.FileIo.Frame

/-!
# Files on disk

A torrent that downloads has a writer for its own output, so that what is done
for a torrent changes its own output files only. Torrents whose output files
are different therefore leave each other's files alone (`spares_of_reachable`).
Nothing keeps two torrents from having the same output files.
-/

namespace PS5Torrent

open Relation Sha1 FileSystem LexPath Effect Work TorrentMgr

/-- What a torrent writes, where, and with what. -/
structure Output where
  torrent : Torrent
  savePath : Bytes
  fileWriter : FileWriter

def ManagedTorrent.output (mt : ManagedTorrent) : Output := ⟨mt.torrent, mt.savePath, mt.fileWriter⟩

/-- The paths of the output files of a torrent. -/
def ManagedTorrent.outputPaths (mt : ManagedTorrent) : List Path :=
  mt.torrent.outputPaths mt.savePath

/-- The writer of a torrent that downloads is that for its output. -/
def ManagedTorrent.WriterReady (mt : ManagedTorrent) : Prop :=
  mt.state = .downloading → mt.fileWriter.For mt.torrent mt.savePath

/-- Work that changes no files but the output, if the writer is that for it. -/
structure Work.Writes (w w' : Work) : Prop where
  output : w'.mt.output = w.mt.output
  files : w.mt.fileWriter.For w.mt.torrent w.mt.savePath →
    ChangesOnlyAt w.mt.outputPaths w.sys w'.sys

variable {w w' w'' : Work} {i slot : ℕ}

namespace Work.Writes

theorem refl (w : Work) : w.Writes w := ⟨rfl, fun _ => refl_of (ChangesOnlyAt _) _⟩

theorem trans (h : w.Writes w') (h' : w'.Writes w'') : w.Writes w'' where
  output := h'.output.trans h.output
  files hfor := by
    have hw : w'.mt.torrent = w.mt.torrent := congrArg Output.torrent h.output
    have hpath : w'.mt.savePath = w.mt.savePath := congrArg Output.savePath h.output
    have hwriter : w'.mt.fileWriter = w.mt.fileWriter := congrArg Output.fileWriter h.output
    have hsecond := h'.files (by rw [hw, hpath, hwriter]; exact hfor)
    rw [ManagedTorrent.outputPaths, hw, hpath] at hsecond
    exact trans_of (ChangesOnlyAt _) (h.files hfor) hsecond

/-- Work without a system call. -/
theorem of_sys_eq (houtput : w'.mt.output = w.mt.output) (hsys : w'.sys = w.sys) : w.Writes w' :=
  ⟨houtput, fun _ => hsys ▸ refl_of (ChangesOnlyAt _) _⟩

end Work.Writes

/-! ## A tick -/

theorem writes_writePiece (w : Work) (index : ℕ) (data : Bytes) :
    w.Writes (w.writePiece index data).2 :=
  ⟨rfl, fun hfor => changesOnlyAt_fileWriterWritePiece hfor data index w.sys⟩

theorem writes_disconnectPeer (i : ℕ) (w : Work) : w.Writes (disconnectPeer i w) := by
  cases hp : w.mt.peers[i]? with
  | none =>
    rw [disconnectPeer_of_none hp]
    exact .refl w
  | some p =>
    obtain ⟨queries, candidates, log, active, -, -, heq⟩ := disconnectPeer_eq' hp
    rw [heq]
    exact .of_sys_eq rfl rfl

theorem Work.Step.writes (hstep : Step w w') : w.Writes w' := by
  cases hstep with
  | query | speed | takeCandidate | postpone | connect => exact .of_sys_eq rfl rfl
  | peer | receive | fail | claim | request | discovery | webSeed => exact .of_sys_eq rfl rfl
  | report hmt =>
    rw [hmt]
    exact .of_sys_eq rfl rfl
  | @finish i p buffer data hstate hreceives hfull hhash hwrite =>
    obtain ⟨downloaded, heq⟩ := finishPiece_eq (getElem?_setPeer hreceives.peer _) hhash hwrite
    rw [heq]
    have hwrites := writes_writePiece w p.lastRequest (p.assembled buffer data)
    exact ⟨rfl, hwrites.files⟩
  | reject => exact (.of_sys_eq rfl rfl : w.Writes (w.setPeer _ _)).trans (writes_disconnectPeer _ _)
  | @writeFailed i p buffer data errorType errorMsg hreceives hfull hhash hwrite =>
    have hwrites := writes_writePiece w p.lastRequest (p.assembled buffer data)
    have hfailed : w.Writes (((w.writePiece p.lastRequest (p.assembled buffer data)).2.setPeer i
        (p.received buffer data)).failTransfer errorType errorMsg) := ⟨rfl, hwrites.files⟩
    exact hfailed.trans (writes_disconnectPeer _ _)
  | disconnect => exact writes_disconnectPeer _ _

theorem Work.Steps.writes (hsteps : Steps w w') : w.Writes w' := by
  induction hsteps with
  | refl => exact .refl w
  | tail _ hstep ih => exact ih.trans hstep.writes

theorem writes_scheduleDiscovery (now : ℕ) (w : Work) : w.Writes (scheduleDiscovery now w) := by
  rw [scheduleDiscovery]
  split
  case isTrue => exact .refl w
  case isFalse =>
    split
    case isTrue => exact .refl w
    case isFalse =>
      split
      case h_1 => exact .refl w
      case h_2 =>
        split_ifs
        all_goals exact .of_sys_eq rfl rfl

/-- The part of a tick for a torrent changes its output only. -/
theorem changesOnlyAt_tickTorrent (now : ℕ) (hready : w.mt.WriterReady) :
    ChangesOnlyAt w.mt.outputPaths w.sys (tickTorrent now w).sys := by
  rw [tickTorrent]
  split
  case isTrue => exact refl_of (ChangesOnlyAt _) _
  case isFalse hstate =>
    split
    case isTrue =>
      obtain ⟨queries, bytes, releases, peers, candidates, log, active, pm, -, -, heq⟩ :=
        disconnectPeers_eq w
      rw [completeTorrent, heq]
      exact refl_of (ChangesOnlyAt _) _
    case isFalse =>
      have hannounce (w : Work) : w.Writes (announce now w) := by
        rw [announce]
        split
        · exact writes_scheduleDiscovery now w
        · exact .refl w
      have hspeed : w.Writes (updateSpeed now w) := steps_updateSpeed.writes
      have hpeers (w : Work) : Steps w
          ((List.range w.mt.peers.length).foldl (fun w i => processPeer i w) w) :=
        steps_foldl (fun _ _ => steps_processPeer) _
      have hrest := (((hpeers (announce now (updateSpeed now w))).trans
        steps_schedulePeerConnections).trans
          (steps_scheduleWebSeeds (WEB_SEED_PARALLEL_PER_TORRENT + 1))).trans steps_updatePeerStatus
      exact ((hspeed.trans (hannounce _)).trans (Steps.writes hrest)).files (hready (not_not.1 hstate))

/-! ## A batch -/

theorem writes_commitPiece (index : ℕ) (data : Bytes) (w : Work) :
    w.Writes (commitPiece index data w).2 := by
  have hwrites := writes_writePiece w index data
  rw [commitPiece]
  split
  case isTrue => exact .refl w
  case isFalse =>
    rw [← Prod.mk.eta (p := w.writePiece index data)]
    dsimp only
    split
    case isTrue => exact hwrites
    case isFalse => exact ⟨hwrites.output, hwrites.files⟩

theorem writes_commitPieces (data : Bytes) (index offset saved : ℕ) (sizes : List ℕ) (w : Work) :
    w.Writes (commitPieces data index offset saved sizes w).2.2 := by
  induction sizes generalizing index offset saved w with
  | nil => exact .refl w
  | cons size sizes ih =>
    rw [commitPieces]
    split
    case isTrue => exact ih _ _ _ w
    case isFalse =>
      have hcommit := writes_commitPiece index ((data.drop offset).take size) w
      split
      case h_1 w' heq =>
        rw [heq] at hcommit
        exact ⟨hcommit.output, hcommit.files⟩
      case h_2 w' heq =>
        rw [heq] at hcommit
        have hcount : w.Writes { w' with mt.downloaded := toSize (w'.mt.downloaded + size) } :=
          ⟨hcommit.output, hcommit.files⟩
        exact hcount.trans (ih _ _ _ _)

theorem writes_applyWebSeed (job : WebSeedJob) (w : Work) : w.Writes (applyWebSeed job w) := by
  rw [applyWebSeed]
  split
  case isTrue => exact .refl w
  case isFalse =>
    split
    case isTrue =>
      have hcommit := writes_commitPieces job.data job.firstPiece 0 0 job.pieceSizes w
      generalize commitPieces job.data job.firstPiece 0 0 job.pieceSizes w = r at hcommit
      obtain ⟨ok, saved, w'⟩ := r
      have hnote : w.Writes (noteProgress saved w') := by
        rw [noteProgress]
        split
        · exact ⟨hcommit.output, hcommit.files⟩
        · exact hcommit
      dsimp only
      split
      case isTrue => exact hnote
      case isFalse => exact ⟨hnote.output, hnote.files⟩
    case isFalse => exact .of_sys_eq rfl rfl

/-! ## A start -/

theorem sameContent_ensureDirectoryTree (path : Bytes) :
    Respects SameContent (ensureDirectoryTree path) := by
  have herrno (e : Errno) : Respects SameContent (setErrno e : SysM Unit) := fun _ => rfl
  have hstat (path : Bytes) : Respects SameContent (stat path) :=
    respects_syscall (fun _ _ => rfl) fun s n a fs h => by
      split at h
      · obtain ⟨-, rfl⟩ := Prod.mk.inj (Except.ok.inj h)
        rfl
      · split at h
        · obtain ⟨-, rfl⟩ := Prod.mk.inj (Except.ok.inj h)
          rfl
        · cases h
  have hensure (path : Bytes) : Respects SameContent (ensureDirectory path) :=
    (sameContent_mkdirIfAbsent path).bind fun _ => (hstat path).bind fun _ =>
      respects_ite (fun _ => respects_pure _) fun _ => (herrno _).bind fun _ => respects_throw _
  have hloop (done rest : Bytes) : Respects SameContent (ensureDirectories done rest) := by
    induction rest generalizing done with
    | nil => exact hensure done
    | cons c rest ih =>
      exact respects_ite (fun _ => ih _) fun _ => (hensure done).bind fun _ => ih _
  refine respects_ite (fun _ => (herrno _).bind fun _ => respects_throw _) fun _ => ?_
  refine respects_ite (fun _ => (herrno _).bind fun _ => respects_throw _) fun _ => ?_
  split
  · exact respects_throw _
  · exact hloop _ _

/-- Setting up a torrent changes its output only, and a download begins with the writer for it. -/
theorem openTorrent_writes (w : Work) :
    ChangesOnlyAt w.mt.outputPaths w.sys (openTorrent w).2.sys ∧
      (w.mt.state ≠ .downloading → (openTorrent w).2.mt.WriterReady) := by
  rw [openTorrent]
  split
  case isTrue => exact ⟨refl_of (ChangesOnlyAt _) _, fun _ h => TorrentState.noConfusion h⟩
  case isFalse =>
    dsimp only
    split
    case isTrue => exact ⟨refl_of (ChangesOnlyAt _) _, fun _ h => TorrentState.noConfusion h⟩
    case isFalse =>
      split
      case h_1 fw sys heq =>
        exact ⟨(changesOnlyAt_fileWriterInit _ w.mt.torrent w.mt.savePath).ok heq,
          fun _ _ => (fileWriterInit_eq_ok heq).1⟩
      case h_2 fw sys heq =>
        exact ⟨(changesOnlyAt_fileWriterInit _ w.mt.torrent w.mt.savePath).error heq,
          fun _ h => TorrentState.noConfusion h⟩

theorem output_resetTorrent (w : Work) :
    (resetTorrent w).mt.torrent = w.mt.torrent ∧ (resetTorrent w).mt.savePath = w.mt.savePath ∧
      (resetTorrent w).sys = w.sys := by
  rw [resetTorrent]
  split
  case isTrue =>
    obtain ⟨queries, bytes, releases, pm, -, heq⟩ := stopTorrent_eq w
    rw [heq]
    exact ⟨rfl, rfl, rfl⟩
  case isFalse => exact ⟨rfl, rfl, rfl⟩

theorem startTorrent_writes (hready : w.mt.WriterReady) :
    ChangesOnlyAt w.mt.outputPaths w.sys (startTorrent w).2.sys ∧
      (startTorrent w).2.mt.WriterReady := by
  rw [startTorrent]
  split
  case isTrue => exact ⟨refl_of (ChangesOnlyAt _) _, hready⟩
  case isFalse hstate =>
    dsimp only
    obtain ⟨htorrent, hpath, hsys⟩ := output_resetTorrent w
    have hstate' : (resetTorrent w).mt.state ≠ .downloading := by
      rw [resetTorrent]
      split
      case isTrue =>
        obtain ⟨queries, bytes, releases, pm, -, heq⟩ := stopTorrent_eq w
        rw [heq]
        exact TorrentState.noConfusion
      case isFalse => exact fun h => hstate (.inl h)
    have houtputs : w.mt.outputPaths = (resetTorrent w).mt.outputPaths := by
      rw [ManagedTorrent.outputPaths, ManagedTorrent.outputPaths, htorrent, hpath]
    have hdirs := sameContent_ensureDirectoryTree (resetTorrent w).mt.savePath (resetTorrent w).sys
    rw [← hsys, houtputs]
    cases hensure : ensureDirectoryTree (resetTorrent w).mt.savePath (resetTorrent w).sys with
    | error e sys =>
      rw [final_of_error hensure] at hdirs
      exact ⟨hdirs.changesOnlyAt, fun h => TorrentState.noConfusion h⟩
    | ok _ sys =>
      rw [final_of_ok hensure] at hdirs
      obtain ⟨hopen, hready'⟩ := openTorrent_writes { resetTorrent w with sys := sys }
      exact ⟨trans_of (ChangesOnlyAt _) hdirs.changesOnlyAt hopen, hready' hstate'⟩

theorem sys_stopTorrent (w : Work) : (stopTorrent w).sys = w.sys := by
  obtain ⟨queries, bytes, releases, pm, -, heq⟩ := stopTorrent_eq w
  rw [heq]

/-! ## Runs -/

theorem ManagedTorrent.WriterReady.of_eq {mt mt' : ManagedTorrent} (h : mt.WriterReady)
    (houtput : mt'.output = mt.output) (hstate : mt'.state = .downloading → mt.state = .downloading) :
    mt'.WriterReady := by
  have htorrent : mt'.torrent = mt.torrent := congrArg Output.torrent houtput
  have hpath : mt'.savePath = mt.savePath := congrArg Output.savePath houtput
  have hwriter : mt'.fileWriter = mt.fileWriter := congrArg Output.fileWriter houtput
  intro hdownloading
  rw [htorrent, hpath, hwriter]
  exact h (hstate hdownloading)

theorem invariant_writerReady : Invariant fun _ mt => mt.WriterReady where
  added hadded _ := by
    obtain ⟨_, _, _, _, _, rfl, -⟩ := hadded
    exact fun h => nomatch h
  next h := h
  op {w w'} hop hsound h := by
    cases hop with
    | tick hstate hsteps => exact h.of_eq hsteps.writes.output fun _ => hstate
    | complete => exact fun h => nomatch h
    | start => exact (startTorrent_writes h).2
    | stop =>
      obtain ⟨queries, bytes, releases, pm, -, heq⟩ := stopTorrent_eq w
      rw [heq]
      exact fun h => nomatch h
    | @candidates slot job hstate =>
      refine h.of_eq ?_ fun _ => hstate
      rw [sameTransfer_addCandidates job.queue w.mt]
      rfl
    | @discovery slot job hstate =>
      refine h.of_eq ?_ fun _ => hstate
      change ((job.result.discovered w.outcome.time w.mt).logRound _).output = _
      rw [sameTransfer_discovered w.outcome.time job.result w.mt]
      rfl
    | @connection slot job hstate =>
      refine h.of_eq ?_ fun _ => hstate
      obtain ⟨queries, mt, -, heq, hsame | ⟨sock, remoteId, candidates, hadd⟩⟩ :=
        applyConnection_eq job w
      · rw [heq]
        dsimp only
        rw [hsame]
        rfl
      · rw [heq]
        obtain ⟨peers, active, rfl⟩ := addPeer_eq hadd
        rfl
    | @webSeed slot job hstate => exact h.of_eq (writes_applyWebSeed job w).output fun _ => hstate
  others _ _ _ h := h
  turn _ _ _ h := h

/-! ## Other torrents -/

/-- The operations on the torrent at an index: starting, stopping and removing it, collecting what
    its jobs bring, and its part of a tick, leave the files at some paths as they are. -/
structure TorrentMgr.Spares (m : TorrentMgr) (paths : List Path) (k : ℕ) : Prop where
  start : ∀ path ∈ paths, (m.torrentMgrStart k).2.sys.fs.content path = m.sys.fs.content path
  stop : ∀ path ∈ paths, (m.torrentMgrStop k).sys.fs.content path = m.sys.fs.content path
  remove : ∀ path ∈ paths, (m.torrentMgrRemove k).sys.fs.content path = m.sys.fs.content path
  webSeed : ∀ slot job, m.webSeedJobs[slot]?.join = some job → m.live job.generation = some k →
    ∀ path ∈ paths, (m.collectWebSeedJob slot).sys.fs.content path = m.sys.fs.content path
  peerConnect : ∀ slot, (m.collectPeerConnectJob slot).sys = m.sys
  discovery : ∀ slot, (m.collectDiscoveryJob slot).sys = m.sys
  tick : ∀ now, ∀ path ∈ paths,
    (m.onTorrent k (tickTorrent now)).sys.fs.content path = m.sys.fs.content path

variable {m m' : TorrentMgr} {a b : ManagedTorrent} {k : ℕ}

/-- Work that makes no system call on any torrent makes none on the live one. -/
theorem sys_onLive {generation : ℕ} {f : Work → Work} (hf : ∀ w, (f w).sys = w.sys) :
    (m.onLive generation f).sys = m.sys := by
  rw [onLive]
  cases m.live generation with
  | none => rfl
  | some i =>
    dsimp only
    cases hmt : m.torrents[i]? with
    | none => rw [onTorrent_of_none hmt]
    | some mt =>
      rw [onTorrent_eq hmt]
      exact hf _

theorem sys_collectPeerConnectJob (slot : ℕ) : (m.collectPeerConnectJob slot).sys = m.sys := by
  rw [collectPeerConnectJob]
  cases m.peerConnectJobs[slot]?.join with
  | none => rfl
  | some job =>
    dsimp only
    split
    · rfl
    · refine sys_onLive fun w => ?_
      obtain ⟨queries, mt, -, heq, -⟩ := applyConnection_eq job w
      rw [heq]

theorem sys_collectDiscoveryJob (slot : ℕ) : (m.collectDiscoveryJob slot).sys = m.sys := by
  rw [collectDiscoveryJob]
  cases m.discoveryJobs[slot]?.join with
  | none => rfl
  | some job =>
    dsimp only
    split
    · exact sys_onLive fun w => rfl
    · refine (sys_onLive (f := applyDiscovery job.result) fun w => rfl).trans ?_
      exact sys_onLive fun w => rfl

/-- In every run, and at any time in a tick: the operations on a torrent leave the output files of
    each torrent alone that has no output file in common with it. -/
theorem spares_of_reachable (hm : Reachable m) (hinside : Stays m m')
    (hb : m'.torrents[k]? = some b) (hdisjoint : a.outputPaths.Disjoint b.outputPaths) :
    m'.Spares a.outputPaths k := by
  have hsound := sound_of_reachable hm
  have hready : b.WriterReady := (invariant_writerReady.moves hinside.moves hsound
    (invariant_writerReady.reachable hm)).2 b (List.mem_of_getElem? hb)
  have hspare {s s' : Sys} (h : ChangesOnlyAt b.outputPaths s s') (path : Path)
      (hpath : path ∈ a.outputPaths) : s'.fs.content path = s.fs.content path :=
    h path fun hmem => hdisjoint hpath hmem
  have hstop : (m'.torrentMgrStop k).sys = m'.sys := by
    rw [torrentMgrStop_eq hb, onTorrent_eq hb]
    exact sys_stopTorrent _
  have hremove : (m'.torrentMgrRemove k).sys = m'.sys := by
    rw [torrentMgrRemove, if_neg (index_of_getElem? hb)]
    exact hstop
  refine ⟨?_, fun path _ => by rw [hstop], fun path _ => by rw [hremove], ?_,
    sys_collectPeerConnectJob, sys_collectDiscoveryJob, fun now => ?_⟩
  · rw [torrentMgrStart, if_neg (index_of_getElem? hb), Int.toNat_natCast, hb]
    dsimp only
    rw [onTorrent_eq hb]
    exact hspare (startTorrent_writes (w := ⟨m'.toWorld, b⟩) hready).1
  · intro slot job hjob hlive
    obtain ⟨b', hb', -, hstate⟩ := live_eq_some hlive
    obtain rfl := Option.some.inj (hb.symm.trans hb')
    rw [collectWebSeedJob, hjob]
    dsimp only
    split
    · exact fun path _ => rfl
    · rw [onLive, hlive]
      dsimp only
      rw [onTorrent_eq hb]
      exact hspare ((writes_applyWebSeed job ⟨m'.toWorld, b⟩).files (hready hstate))
  · rw [onTorrent_eq hb]
    exact hspare (changesOnlyAt_tickTorrent (w := ⟨m'.toWorld, b⟩) now hready)

/-! ### The same metainfo twice -/

/-- A manager with a torrent that is done and one of the same metainfo, to be saved in `path`. -/
def twiceMgr (path : Bytes) : TorrentMgr := doneMgr.run [.addRaw seededTorrent path []]

theorem reachable_twiceMgr (path : Bytes) : Reachable (twiceMgr path) := reachable_doneMgr.run _

/-- In different directories, the torrents have different output files. -/
theorem spares_of_reachable_twice :
    ∃ a ∈ (twiceMgr (lit "/e")).torrents, (twiceMgr (lit "/e")).Spares a.outputPaths 1 := by
  have hfacts : ∃ a ∈ (twiceMgr (lit "/e")).torrents[0]?, ∃ b ∈ (twiceMgr (lit "/e")).torrents[1]?,
      ∀ path ∈ a.outputPaths, path ∉ b.outputPaths := by decide +kernel
  obtain ⟨a, ha, b, hb, hdisjoint⟩ := hfacts
  refine ⟨a, List.mem_of_getElem? ha, ?_⟩
  exact spares_of_reachable (reachable_twiceMgr (lit "/e")) .refl hb
    fun path hpath hmem => hdisjoint path hpath hmem

/-- In the same directory, starting the second torrent truncates the file of the first one, whose
    piece is complete. -/
theorem not_spares_twice :
    Reachable (twiceMgr (lit "/d")) ∧
      ∃ a ∈ (twiceMgr (lit "/d")).torrents[0]?, ∃ b ∈ (twiceMgr (lit "/d")).torrents[1]?,
        a.pieceMgr.state 0 = some .complete ∧ b.state = .stopped ∧
        ∃ path ∈ a.outputPaths, (twiceMgr (lit "/d")).sys.fs.content path = some (lit "xy") ∧
          ((twiceMgr (lit "/d")).torrentMgrStart 1).2.sys.fs.content path = some [] := by
  refine ⟨reachable_twiceMgr _, ?_⟩
  decide +kernel

end PS5Torrent
