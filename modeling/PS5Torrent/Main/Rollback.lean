import PS5Torrent.Main
import PS5Torrent.TorrentMgr.Track
import PS5Torrent.TorrentMgr.Holders

/-!
# Requests that are refused

A request that adds a torrent and is not answered with 200 leaves the torrents
as they were (`torrents_of_refused`): it fails before the torrent is there, or
when the torrent is the last one and is removed again. Whatever a request does,
it is a run of the manager (`exists_run_handle`).
-/

namespace PS5Torrent

open TorrentMgr

variable {c : Console} {req : HttpRequest} {m m' : TorrentMgr} {handler : Handler}
  {ts : List ManagedTorrent} {mt : ManagedTorrent}

/-! ## The last torrent -/

theorem index_of_last (hm : m.torrents = ts ++ [mt]) :
    ¬((ts.length : ℤ) < 0 ∨ (ts.length : ℤ) ≥ m.torrents.length) := by
  rw [hm, List.length_append, List.length_singleton]
  omega

theorem getElem?_of_last (hm : m.torrents = ts ++ [mt]) : m.torrents[ts.length]? = some mt := by
  rw [hm, List.getElem?_concat_length]

/-- A call on the last torrent changes no other one. -/
theorem torrents_onTorrent_last (hm : m.torrents = ts ++ [mt]) (f : Work → Work) :
    ∃ mt', (m.onTorrent ts.length f).torrents = ts ++ [mt'] := by
  rw [onTorrent_eq (getElem?_of_last hm)]
  refine ⟨(f ⟨m.toWorld, mt⟩).mt, ?_⟩
  dsimp only
  rw [hm, List.set_append_right _ _ le_rfl, Nat.sub_self, List.set_cons_zero]

theorem torrents_torrentMgrStart_last (hm : m.torrents = ts ++ [mt]) :
    ∃ mt', (m.torrentMgrStart ts.length).2.torrents = ts ++ [mt'] := by
  rw [torrentMgrStart, if_neg (index_of_last hm), Int.toNat_natCast, getElem?_of_last hm]
  exact torrents_onTorrent_last hm _

theorem torrents_torrentMgrRemove_last (hm : m.torrents = ts ++ [mt]) :
    (m.torrentMgrRemove ts.length).torrents = ts := by
  obtain ⟨mt', hstop⟩ := torrents_onTorrent_last hm stopTorrent
  rw [torrentMgrRemove, if_neg (index_of_last hm)]
  dsimp only
  rw [torrentMgrStop, if_neg (index_of_last hm), Int.toNat_natCast, hstop,
    List.eraseIdx_append_of_length_le le_rfl, Nat.sub_self, List.eraseIdx_cons_zero,
    List.append_nil]

/-! ## Adding and starting -/

/-- A torrent that was added last and cannot be started is removed again. -/
theorem torrents_startAdded (hm : m.torrents = ts ++ [mt]) {fallback : Bytes}
    {escapedSize jsonSize : ℕ}
    (hstatus : (startAdded c m ts.length fallback escapedSize jsonSize).1.statusCode ≠ 200) :
    (startAdded c m ts.length fallback escapedSize jsonSize).2.torrents = ts := by
  obtain ⟨mt', hstart⟩ := torrents_torrentMgrStart_last hm
  rw [startAdded] at hstatus ⊢
  generalize m.torrentMgrStart ts.length = r at hstart hstatus
  obtain ⟨started, m'⟩ := r
  cases started with
  | false => exact torrents_torrentMgrRemove_last hstart
  | true => exact absurd rfl hstatus

/-- The end of a request that adds a torrent: it is refused, or the torrent is started. -/
def finishAdding (c : Console) (reply : Reply) (fallback : Bytes) (escapedSize jsonSize : ℕ) :
    Option ℕ × TorrentMgr → Reply × TorrentMgr
  | (none, m) => (reply, m)
  | (some index, m) => startAdded c m index fallback escapedSize jsonSize

/-- An added torrent that is refused afterwards is removed again. -/
theorem TorrentMgr.Added.torrents {accepted : Prop} {r : Option ℕ × TorrentMgr} {reply : Reply}
    {fallback : Bytes} {escapedSize jsonSize : ℕ} (h : m.Added accepted r)
    (hstatus : (finishAdding c reply fallback escapedSize jsonSize r).1.statusCode ≠ 200) :
    (finishAdding c reply fallback escapedSize jsonSize r).2.torrents = m.torrents := by
  by_cases hadded : accepted ∧ m.torrents.length < MAX_TORRENTS
  · obtain ⟨hindex, mt, htorrents⟩ := h.added hadded.1 hadded.2
    obtain ⟨index, m'⟩ := r
    obtain rfl : index = some m.torrents.length := hindex
    exact torrents_startAdded htorrents hstatus
  · obtain rfl := h.rejected hadded
    rfl

theorem torrents_handleApiAdd (c : Console) (req : HttpRequest) (m : TorrentMgr) :
    (handleApiAdd c req m).1.statusCode ≠ 200 → (handleApiAdd c req m).2.torrents = m.torrents := by
  rw [handleApiAdd]
  cases req.posted with
  | none => exact fun _ => rfl
  | some body =>
    dsimp only
    split
    · exact fun _ => rfl
    · cases buildSavePath (destination (param body (lit "path") 512)) 512 with
      | none => exact fun _ => rfl
      | some savePath => exact (added_torrentMgrAddMagnet _ _ _ _).torrents

theorem torrents_handleApiUpload (c : Console) (req : HttpRequest) (m : TorrentMgr) :
    (handleApiUpload c req m).1.statusCode ≠ 200 →
      (handleApiUpload c req m).2.torrents = m.torrents := by
  rw [handleApiUpload]
  cases req.posted with
  | none => exact fun _ => rfl
  | some body =>
    dsimp only
    split
    · exact fun _ => rfl
    · cases (httpGetUpload body (lit "torrent") [] 256).1 with
      | none => exact fun _ => rfl
      | some fileData =>
        dsimp only
        split
        · exact fun _ => rfl
        · cases buildSavePath (destination
              (cstr ((httpGetMultipartField body (lit "path") 512).getD []))) 512 with
          | none => exact fun _ => rfl
          | some savePath => exact (added_torrentMgrAddRaw _ _ _).torrents

theorem torrents_handleApiLocal (c : Console) (req : HttpRequest) (m : TorrentMgr) :
    (handleApiLocal c req m).1.statusCode ≠ 200 →
      (handleApiLocal c req m).2.torrents = m.torrents := by
  rw [handleApiLocal]
  cases req.posted with
  | none => exact fun _ => rfl
  | some body =>
    dsimp only
    cases consoleTorrentRead c.toConsoleDisk (param body (lit "source") 1024) with
    | none => exact fun _ => rfl
    | some data =>
      cases buildSavePath (destination (param body (lit "path") 512)) 512 with
      | none => exact fun _ => rfl
      | some savePath => exact (added_torrentMgrAddRaw _ _ _).torrents

/-- A request to add a torrent that is not answered with 200 changes no torrent. -/
theorem torrents_of_refused (hadds : handler ≠ .action)
    (hstatus : (handler.handle c req m).1.statusCode ≠ 200) :
    (handler.handle c req m).2.torrents = m.torrents := by
  cases handler with
  | add => exact torrents_handleApiAdd c req m hstatus
  | upload => exact torrents_handleApiUpload c req m hstatus
  | localFile => exact torrents_handleApiLocal c req m hstatus
  | action => exact absurd rfl hadds
  | mkdir => rfl

/-- A console that makes any folder, and has no metainfo files. -/
def plainConsole : Console where
  regularFile _ := none
  realpath := some
  opendir _ := true
  mkdirat _ _ := none
  localAccess := true
  peerId := []
  stack := []

def postRequest (path body : Bytes) : HttpRequest where
  method := .post
  path := path
  query := []
  body := some body
  contentType := []

def emptyMgr : TorrentMgr := TorrentMgr.init (sysWith []) (fun _ => []) calmEnv

theorem reachable_emptyMgr : Reachable emptyMgr := ⟨_, _, _, [], rfl⟩

/-- A magnet link is added, cannot be started, and is removed again. -/
theorem torrents_of_refused_magnet :
    let req := postRequest (lit "/api/torrents/add") (lit "magnet=magnet:?xt=urn:btih:00")
    (Handler.add.handle plainConsole req emptyMgr).2.torrents = emptyMgr.torrents :=
  torrents_of_refused (by decide) (by decide +kernel)

/-! ## Requests as runs -/

theorem run_append (m : TorrentMgr) (events events' : List Event) :
    m.run (events ++ events') = (m.run events).run events' := by
  rw [run, run, run, List.foldl_append]

theorem exists_run_startAdded (m : TorrentMgr) (index : ℕ) (fallback : Bytes)
    (escapedSize jsonSize : ℕ) :
    ∃ events : List Event,
      (startAdded c m index fallback escapedSize jsonSize).2 = m.run events := by
  have hstart : (m.torrentMgrStart index).2 = m.run [.start index] := rfl
  rw [startAdded]
  generalize m.torrentMgrStart index = r at hstart
  obtain ⟨started, m'⟩ := r
  obtain rfl : m' = m.run [.start index] := hstart
  cases started with
  | false => exact ⟨[.start index, .remove index], rfl⟩
  | true => exact ⟨[.start index], rfl⟩

/-- Adding a torrent, and starting it if it was added, is a run. -/
theorem exists_run_added {r : Option ℕ × TorrentMgr} (hr : ∃ events : List Event, r.2 = m.run events)
    (reply : Reply) (fallback : Bytes) (escapedSize jsonSize : ℕ) :
    ∃ events : List Event,
      (finishAdding c reply fallback escapedSize jsonSize r).2 = m.run events := by
  obtain ⟨index, m'⟩ := r
  obtain ⟨events, rfl⟩ : ∃ events : List Event, m' = m.run events := hr
  cases index with
  | none => exact ⟨events, rfl⟩
  | some index =>
    obtain ⟨events', hstart⟩ := exists_run_startAdded (c := c) (m.run events) index fallback
      escapedSize jsonSize
    exact ⟨events ++ events', hstart.trans (run_append m events events').symm⟩

theorem length_httpGetUpload_le {body fieldName filename data : Bytes} {filenameLen : ℕ}
    (hdata : (httpGetUpload body fieldName filename filenameLen).1 = some data) :
    data.length ≤ body.length := by
  rw [httpGetUpload] at hdata
  split at hdata
  · cases hdata
  · dsimp only at hdata
    split at hdata
    · cases hdata
    · split at hdata
      · obtain rfl := Option.some.inj hdata
        rw [List.length_take, List.length_drop, List.length_drop]
        omega
      · cases hdata

theorem length_consoleTorrentRead_le {disk : ConsoleDisk} {path data : Bytes}
    (hdata : consoleTorrentRead disk path = some data) : data.length ≤ HTTP_MAX_BODY := by
  rw [consoleTorrentRead] at hdata
  split at hdata
  · cases hdata
  · split at hdata
    · cases hdata
    · split at hdata
      · cases hdata
      case isFalse hlength =>
        obtain rfl := Option.some.inj hdata
        omega

theorem exists_run_handleApiAdd (c : Console) (req : HttpRequest) (m : TorrentMgr) :
    ∃ events : List Event, (handleApiAdd c req m).2 = m.run events := by
  rw [handleApiAdd]
  cases req.posted with
  | none => exact ⟨[], rfl⟩
  | some body =>
    dsimp only
    split
    · exact ⟨[], rfl⟩
    · cases buildSavePath (destination (param body (lit "path") 512)) 512 with
      | none => exact ⟨[], rfl⟩
      | some savePath => exact exists_run_added (torrentMgrAddMagnet_eq _ _ _ _) _ _ _ _

theorem exists_run_handleApiUpload (hbody : ∀ body ∈ req.body, body.length ≤ HTTP_MAX_BODY)
    (c : Console) (m : TorrentMgr) :
    ∃ events : List Event, (handleApiUpload c req m).2 = m.run events := by
  rw [handleApiUpload]
  cases hposted : req.posted with
  | none => exact ⟨[], rfl⟩
  | some body =>
    dsimp only
    split
    · exact ⟨[], rfl⟩
    · cases hdata : (httpGetUpload body (lit "torrent") [] 256).1 with
      | none => exact ⟨[], rfl⟩
      | some fileData =>
        dsimp only
        split
        · exact ⟨[], rfl⟩
        · cases buildSavePath (destination
              (cstr ((httpGetMultipartField body (lit "path") 512).getD []))) 512 with
          | none => exact ⟨[], rfl⟩
          | some savePath =>
            rw [HttpRequest.posted] at hposted
            split at hposted
            · have hlength := (length_httpGetUpload_le hdata).trans (hbody body hposted)
              exact exists_run_added (torrentMgrAddRaw_eq hlength _ _) _ _ _ _
            · cases hposted

theorem exists_run_handleApiLocal (c : Console) (req : HttpRequest) (m : TorrentMgr) :
    ∃ events : List Event, (handleApiLocal c req m).2 = m.run events := by
  rw [handleApiLocal]
  cases req.posted with
  | none => exact ⟨[], rfl⟩
  | some body =>
    dsimp only
    cases hdata : consoleTorrentRead c.toConsoleDisk (param body (lit "source") 1024) with
    | none => exact ⟨[], rfl⟩
    | some data =>
      cases buildSavePath (destination (param body (lit "path") 512)) 512 with
      | none => exact ⟨[], rfl⟩
      | some savePath =>
        exact exists_run_added (torrentMgrAddRaw_eq (length_consoleTorrentRead_le hdata) _ _) _ _ _ _

theorem act_eq_run (m : TorrentMgr) (id : ℤ) (a : Action) : (m.act id a).2 = m.run [a.event id] := by
  cases a with
  | start => rfl
  | stop => rfl
  | remove => rfl

theorem exists_run_handleApiAction (c : Console) (req : HttpRequest) (m : TorrentMgr) :
    ∃ events : List Event, (handleApiAction c req m).2 = m.run events := by
  rw [handleApiAction]
  split
  · exact ⟨[], rfl⟩
  · generalize readId (-1) ((cstr req.path).drop 14) = r
    obtain ⟨id, p⟩ := r
    dsimp only
    split
    · exact ⟨[], rfl⟩
    · cases Action.ofName (strncpy 16 p.tail) with
      | none => exact ⟨[], rfl⟩
      | some a =>
        have hact := act_eq_run m id a
        refine ⟨[a.event id], ?_⟩
        dsimp only
        generalize m.act id a = r at hact
        obtain ⟨started, m'⟩ := r
        cases started with
        | true => exact hact
        | false =>
          dsimp only
          split
          · exact hact
          · exact hact

/-- Whatever a request does is a run of the manager. -/
theorem exists_run_handle (hbody : ∀ body ∈ req.body, body.length ≤ HTTP_MAX_BODY)
    (handler : Handler) (c : Console) (m : TorrentMgr) :
    ∃ events : List Event, (handler.handle c req m).2 = m.run events := by
  cases handler with
  | add => exact exists_run_handleApiAdd c req m
  | upload => exact exists_run_handleApiUpload hbody c m
  | localFile => exact exists_run_handleApiLocal c req m
  | action => exact exists_run_handleApiAction c req m
  | mkdir => exact ⟨[], rfl⟩

/-- Requests lead from reachable states to reachable states. -/
theorem Reachable.handle (hm : Reachable m)
    (hbody : ∀ body ∈ req.body, body.length ≤ HTTP_MAX_BODY) (handler : Handler) (c : Console) :
    Reachable (handler.handle c req m).2 := by
  obtain ⟨events, hrun⟩ := exists_run_handle hbody handler c m
  rw [hrun]
  exact hm.run events

end PS5Torrent
