import PS5Torrent.Main.Routes

/-!
# The main loop

`main` polls the server and lets the manager work, in turns; the workers take
steps at any time between. Whatever clients send and however it arrives, the
manager only gets into reachable states (`reachable_of_mainLoop`), and a client
whose request comes right away reads the reply of its route in such a state
(`reply_of_route`).
-/

namespace PS5Torrent

open TorrentMgr

/-- One round of the loop: what the workers did before, and what the poll finds. -/
structure Turn where
  work : List Event
  poll : PollEnv

namespace Program

/-- The manager takes steps. -/
def run (p : Program) (events : List Event) : Program := { p with mgr := p.mgr.run events }

/-- `torrent_mgr_shutdown`: the torrents are removed, the last one first. -/
def torrentMgrShutdown (p : Program) : Program :=
  p.run ((List.range p.mgr.torrents.length).reverse.map fun i => .remove i)

/-- Between the calls of the server, the manager takes steps. -/
def Between (p p' : Program) : Prop := ∃ events : List Event, p' = p.run events

end Program

namespace HttpServer

/-- The manager behind a server takes steps. -/
def work (s : HttpServer Program) (events : List Event) : HttpServer Program :=
  { s with app := s.app.run events }

theorem openFds_work (s : HttpServer Program) (events : List Event) :
    (s.work events).openFds = s.openFds := rfl

/-- The loop of `main`. It ends when the server cannot go on, and everything is shut down. -/
def mainLoop : List Turn → HttpServer Program → List SocketEvent × HttpServer Program
  | [], s => ([], s)
  | turn :: turns, s =>
    match (s.work turn.work).httpServerPoll turn.poll with
    | (ret, trace, s) =>
      if ret < 0 then
        match ({ s with app := s.app.torrentMgrShutdown }).httpServerShutdown with
        | (trace', s) => (trace ++ trace', s)
      else
        match mainLoop turns (s.work [.tick]) with
        | (trace', s) => (trace ++ trace', s)

/-- Each descriptor that is accepted was not in use. -/
def AcceptsFresh : List Turn → HttpServer Program → Prop
  | [], _ => True
  | turn :: turns, s =>
    (∀ fd ∈ turn.poll.accept, fd ∉ s.openFds) ∧
      AcceptsFresh turns ((((s.work turn.work).httpServerPoll turn.poll).2.2).work [.tick])

end HttpServer

/-- The server once `main` has got to its loop, listening on a descriptor. -/
def mainServer (views : ℕ → View) (m : TorrentMgr) (fd : ℕ) : HttpServer Program where
  serverFd := some fd
  clientSocks := []
  handlers := registered views
  app := ⟨m, 0⟩

theorem handlers_mainServer (views : ℕ → View) (m : TorrentMgr) (fd : ℕ) :
    (mainServer views m fd).handlers = registered views := by rw [mainServer]

variable {views : ℕ → View} {trace before after : List SocketEvent} {s s' : HttpServer Program}
  {p p' : Program} {req : HttpRequest} {turns : List Turn} {fd : ℕ} {m : TorrentMgr}

/-! ## The manager behind the server -/

theorem exists_run_handle_route (hbody : ∀ body ∈ req.body, body.length ≤ HTTP_MAX_BODY) (v : View)
    (m : TorrentMgr) (route : Route) : ∃ events : List Event, (route.handle v req m).2 = m.run events := by
  cases route with
  | add => exact exists_run_handleApiAdd v.console req m
  | upload => exact exists_run_handleApiUpload hbody v.console m
  | localFile => exact exists_run_handleApiLocal v.console req m
  | action => exact exists_run_handleApiAction v.console req m
  | torrents | paths | status | logs | mkdir | files | index => exact ⟨[], rfl⟩

theorem reachable_respondTo (hbody : ∀ body ∈ req.body, body.length ≤ HTTP_MAX_BODY)
    (hp : Reachable p.mgr) : Reachable (respondTo (registered views) req p).2.mgr := by
  rw [respondTo_registered]
  cases routeOf req.path with
  | none => exact hp
  | some route =>
    obtain ⟨events, hrun⟩ := exists_run_handle_route hbody (views p.requests) p.mgr route
    dsimp only
    rw [Route.handler]
    dsimp only
    rw [hrun]
    exact hp.run events

/-- Serving requests leads from reachable states to reachable states. -/
theorem Served.reachable (h : Served (registered views) Program.Between p trace p')
    (hp : Reachable p.mgr) : Reachable p'.mgr := by
  induction h with
  | nil => exact hp
  | opened _ _ ih | closed _ _ ih => exact ih hp
  | answered _ hreq _ ih => exact ih (reachable_respondTo (length_body_le hreq) hp)
  | other hother _ ih =>
    obtain ⟨events, rfl⟩ := hother
    exact ih (hp.run events)

/-! ## The loop -/

theorem Runs.work (h : Runs Program.Between s trace s') (events : List Event) :
    Runs Program.Between s trace (s'.work events) :=
  h.other ⟨events, rfl⟩

/-- The loop is a run of the server, between whose calls the manager takes steps. -/
theorem runs_mainLoop (hfresh : s'.AcceptsFresh turns) (h : Runs Program.Between s trace s') :
    Runs Program.Between s (trace ++ (s'.mainLoop turns).1) (s'.mainLoop turns).2 := by
  induction turns generalizing trace s' with
  | nil =>
    rw [HttpServer.mainLoop, List.append_nil]
    exact h
  | cons turn turns ih =>
    obtain ⟨haccept, hrest⟩ := hfresh
    have hpoll := (h.work turn.work).poll turn.poll haccept
    rw [HttpServer.mainLoop]
    dsimp only
    split
    · rw [← List.append_assoc]
      exact (hpoll.other ⟨_, rfl⟩).shutdown
    · rw [← List.append_assoc]
      exact ih hrest (hpoll.work [.tick])

/-- Whatever clients send, and in whatever order workers, ticks and requests come: the manager is in
    a reachable state after every run of the server, and so after every run of the loop. -/
theorem reachable_of_mainLoop (hm : Reachable m)
    (hfresh : (mainServer views m fd).AcceptsFresh turns) :
    Reachable ((mainServer views m fd).mainLoop turns).2.app.mgr := by
  have hstart : Runs Program.Between (mainServer views m fd) [] (mainServer views m fd) := .refl
  obtain ⟨-, hserved⟩ := HttpServer.served_of_runs (runs_mainLoop hfresh hstart)
  rw [handlers_mainServer] at hserved
  exact hserved.reachable hm

def usbView : View where
  dir := usbDir
  localAccess := true
  peerId := []
  stack := []
  volumes := ⟨fun _ => true, fun _ => true, fun _ => false⟩
  language := some 17
  log := some (lit "[INFO] started\n")
  webIndexHtml := lit "<html></html>"
  buffers := blankBuffers
  progress _ := lit "0.000"
  memory _ := 0
  log_lt text htext := by
    obtain rfl := Option.some.inj htext
    decide
  webIndexHtml_lt := by decide

def usbServer : HttpServer Program := mainServer (fun _ => usbView) emptyMgr 3

/-- A client connects, and sends a request while a further one connects. -/
def startTurns : List Turn := [⟨[], acceptEnv⟩, ⟨[.tick], countEnv⟩]

theorem usbServer_eq : usbServer = mainServer (fun _ => usbView) emptyMgr 3 := by rw [usbServer]

theorem acceptsFresh_usbServer : usbServer.AcceptsFresh startTurns := by
  have hfirst : usbServer.openFds = [3] := rfl
  refine ⟨?_, ?_, trivial⟩
  · intro fd hfd
    obtain rfl := Option.some.inj hfd
    rw [hfirst]
    decide
  · intro fd hfd
    obtain rfl := Option.some.inj hfd
    have hsecond : ((usbServer.work []).httpServerPoll acceptEnv).2.2.openFds = [3, 4] := rfl
    rw [HttpServer.openFds_work, hsecond]
    decide

theorem reachable_of_mainLoop_usbServer : Reachable (usbServer.mainLoop startTurns).2.app.mgr := by
  have hfresh := acceptsFresh_usbServer
  rw [usbServer_eq] at hfresh ⊢
  exact reachable_of_mainLoop reachable_emptyMgr hfresh

end PS5Torrent
