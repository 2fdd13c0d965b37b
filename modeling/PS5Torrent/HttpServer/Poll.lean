import Mathlib.Data.List.ReduceOption
import PS5Torrent.HttpServer.Respond

/-!
# The server

`http_server_poll` and what surrounds it. A call accepts at most one connection
and answers every client that is ready; a connection is answered at most once and
closed once (`HttpServer.life_of_runs`). The program's own state is behind the handlers:
the server applies them one request at a time (`HttpServer.served_of_runs`), and a client
whose request comes right away gets what its handler replies (`HttpServer.reply_of_ready`).
-/

namespace PS5Torrent

variable {σ : Type}

/-! ## Handlers -/

/-- A registered handler: its reply, if it has one, and the state after it. -/
structure HandlerEntry (σ : Type) where
  path : Bytes
  handler : HttpRequest → σ → Option HttpResponse × σ

def MAX_HANDLERS : ℕ := 16

def MAX_CLIENTS : ℕ := 8

def httpServerRegister (path : Bytes) (handler : HttpRequest → σ → Option HttpResponse × σ)
    (handlers : List (HandlerEntry σ)) : List (HandlerEntry σ) :=
  if handlers.length ≥ MAX_HANDLERS then handlers
  else handlers ++ [⟨(cstr path).take (128 - 1), handler⟩]

/-- The first registered prefix of the path decides. -/
def respondTo (handlers : List (HandlerEntry σ)) (req : HttpRequest) (app : σ) : HttpResponse × σ :=
  match handlers.find? fun entry => entry.path.isPrefixOf (cstr req.path) with
  | none => (notFound, app)
  | some entry =>
    match entry.handler req app with
    | (resp, app) => (resp.getD notFound, app)

/-! ## The server and its sockets -/

/-- A connection: what comes on it, and how much the network takes. -/
structure Connection where
  receiver : Receiver UInt8
  room : ℕ → Option ℕ

def Connection.sender (conn : Connection) : Sender UInt8 := ⟨[], conn.room, 0⟩

/-- What is done to a descriptor. -/
inductive SocketEvent
  | opened (fd : ℕ)
  | answered (fd : ℕ) (req : HttpRequest) (sent : Bytes)
  | closed (fd : ℕ)

def SocketEvent.fd : SocketEvent → ℕ
  | opened fd => fd
  | answered fd _ _ => fd
  | closed fd => fd

structure HttpServer (σ : Type) where
  serverFd : Option ℕ
  clientSocks : List ℕ
  handlers : List (HandlerEntry σ)
  app : σ

/-- The results of the calls of `http_server_init`. -/
structure InitEnv where
  socket : Option ℕ
  bind : Bool
  listen : Bool

/-- The result of `select`: which of the descriptors it was asked about are ready. -/
inductive Selected
  | failed (eintr : Bool)
  | timeout
  | ready (isset : ℕ → Bool)

/-- The results of the calls of `http_server_poll`. -/
structure PollEnv where
  selected : Selected
  accept : Option ℕ
  connection : ℕ → Connection

namespace HttpServer

/-- The descriptors that the server has to close. -/
def openFds (s : HttpServer σ) : List ℕ := s.serverFd.toList ++ s.clientSocks

def httpServerInit (env : InitEnv) (s : HttpServer σ) : Bool × List SocketEvent × HttpServer σ :=
  match env.socket with
  | none => (false, [], { s with serverFd := none })
  | some fd =>
    if env.bind && env.listen then (true, [.opened fd], { s with serverFd := some fd })
    else (false, [.opened fd, .closed fd], { s with serverFd := none })

/-- A connection is accepted; without a place for it, it is closed at once. -/
def acceptClient (client : Option ℕ) (s : HttpServer σ) : List SocketEvent × HttpServer σ :=
  match client with
  | none => ([], s)
  | some client =>
    if s.clientSocks.length < MAX_CLIENTS then
      ([.opened client], { s with clientSocks := s.clientSocks ++ [client] })
    else ([.opened client, .closed client], s)

end HttpServer

/-- One client that is ready: without a request there is no response. -/
def handleClient (handlers : List (HandlerEntry σ)) (conn : Connection) (fd : ℕ) (app : σ) :
    List SocketEvent × σ :=
  match parseHttpRequest conn.receiver with
  | (none, _) => ([.closed fd], app)
  | (some req, _) =>
    match respondTo handlers req app with
    | (resp, app) =>
      ([.answered fd req (httpServerSendResponse resp conn.sender).sent, .closed fd], app)

/-- The loop over the clients; the place of a client that was ready is cleared. -/
def handleClients (handlers : List (HandlerEntry σ)) (isset : ℕ → Bool)
    (connection : ℕ → Connection) : List ℕ → σ → List (Option ℕ) × List SocketEvent × σ
  | [], app => ([], [], app)
  | fd :: fds, app =>
    if isset fd then
      match handleClient handlers (connection fd) fd app with
      | (events, app) =>
        match handleClients handlers isset connection fds app with
        | (socks, events', app) => (none :: socks, events ++ events', app)
    else
      match handleClients handlers isset connection fds app with
      | (socks, events, app) => (some fd :: socks, events, app)

namespace HttpServer

/-- The descriptors among those that are watched that are ready. -/
def isset (s : HttpServer σ) (ready : ℕ → Bool) (fd : ℕ) : Bool :=
  decide (fd ∈ s.openFds) && ready fd

/-- The first thing that `http_server_poll` does once something is ready. -/
def accepted (serverFd : ℕ) (ready : ℕ → Bool) (env : PollEnv) (s : HttpServer σ) :
    List SocketEvent × HttpServer σ :=
  if s.isset ready serverFd then s.acceptClient env.accept else ([], s)

/-- What `http_server_poll` does once something is ready. The places that were
    cleared are removed. -/
def pollReady (serverFd : ℕ) (ready : ℕ → Bool) (env : PollEnv) (s : HttpServer σ) :
    List SocketEvent × HttpServer σ :=
  match s.accepted serverFd ready env with
  | (events, s') =>
    match handleClients s'.handlers (s.isset ready) env.connection s'.clientSocks s'.app with
    | (socks, events', app) =>
      (events ++ events', { s' with clientSocks := socks.reduceOption, app := app })

def httpServerPoll (env : PollEnv) (s : HttpServer σ) : ℤ × List SocketEvent × HttpServer σ :=
  match s.serverFd with
  | none => (-1, [], s)
  | some serverFd =>
    match env.selected with
    | .failed eintr => (if eintr then 1 else -1, [], s)
    | .timeout => (1, [], s)
    | .ready ready => (0, s.pollReady serverFd ready env)

def httpServerShutdown (s : HttpServer σ) : List SocketEvent × HttpServer σ :=
  (s.openFds.map .closed, { s with serverFd := none, clientSocks := [] })

end HttpServer

/-! ## Runs -/

/-- Calls on a server, one after the other, with what they do to descriptors. A
    descriptor that is handed out is not in use. Between the calls the rest of
    the program changes its state. -/
inductive Runs (other : σ → σ → Prop) (s : HttpServer σ) :
    List SocketEvent → HttpServer σ → Prop
  | refl : Runs other s [] s
  | init {trace : List SocketEvent} {s' : HttpServer σ} (h : Runs other s trace s') (env : InitEnv)
      (hclosed : s'.serverFd = none) (hfresh : ∀ fd ∈ env.socket, fd ∉ s'.openFds) :
      Runs other s (trace ++ (s'.httpServerInit env).2.1) (s'.httpServerInit env).2.2
  | poll {trace : List SocketEvent} {s' : HttpServer σ} (h : Runs other s trace s') (env : PollEnv)
      (hfresh : ∀ fd ∈ env.accept, fd ∉ s'.openFds) :
      Runs other s (trace ++ (s'.httpServerPoll env).2.1) (s'.httpServerPoll env).2.2
  | shutdown {trace : List SocketEvent} {s' : HttpServer σ} (h : Runs other s trace s') :
      Runs other s (trace ++ s'.httpServerShutdown.1) s'.httpServerShutdown.2
  | other {trace : List SocketEvent} {s' : HttpServer σ} (h : Runs other s trace s') {app : σ}
      (hother : other s'.app app) : Runs other s trace { s' with app := app }

/-! ## The life of a descriptor -/

inductive Life
  | free
  | inUse
  | answered
deriving DecidableEq

/-- What may happen to a descriptor: a connection is answered at most once, and closed. -/
def Life.next : Life → SocketEvent → Option Life
  | free, .opened _ => some inUse
  | inUse, .answered _ _ _ => some answered
  | inUse, .closed _ => some free
  | answered, .closed _ => some free
  | _, _ => none

/-- What becomes of a descriptor, if all that happens to it may happen. -/
def Life.after (fd : ℕ) (l : Life) (trace : List SocketEvent) : Option Life :=
  (trace.filter (·.fd = fd)).foldlM Life.next l

variable {fd : ℕ} {l : Life} {trace events : List SocketEvent} {s s' : HttpServer σ}
  {handlers : List (HandlerEntry σ)} {connection : ℕ → Connection}

namespace Life

theorem after_append (fd : ℕ) (l : Life) (trace events : List SocketEvent) :
    after fd l (trace ++ events) = (after fd l trace).bind fun l' => after fd l' events := by
  rw [after, List.filter_append, List.foldlM_append]
  rfl

theorem after_of_forall_ne (h : ∀ e ∈ trace, e.fd ≠ fd) : after fd l trace = some l := by
  have hnil : trace.filter (·.fd = fd) = [] :=
    List.filter_eq_nil_iff.2 fun e he => by simpa using h e he
  rw [after, hnil]
  rfl

theorem after_of_forall_eq (h : ∀ e ∈ trace, e.fd = fd) :
    after fd l trace = trace.foldlM Life.next l := by
  have hall : trace.filter (·.fd = fd) = trace :=
    List.filter_eq_self.2 fun e he => by simpa using h e he
  rw [after, hall]

end Life

/-- A client that is ready is answered or not, and closed. -/
theorem handleClient_cases (handlers : List (HandlerEntry σ)) (conn : Connection) (fd : ℕ)
    (app : σ) :
    handleClient handlers conn fd app = ([.closed fd], app) ∨
      ∃ req, (parseHttpRequest conn.receiver).1 = some req ∧ handleClient handlers conn fd app =
        ([.answered fd req (httpServerSendResponse (respondTo handlers req app).1 conn.sender).sent,
          .closed fd], (respondTo handlers req app).2) := by
  rw [handleClient]
  rcases hparse : parseHttpRequest conn.receiver with ⟨_ | req, r⟩
  · exact .inl rfl
  · exact .inr ⟨req, rfl, rfl⟩

theorem fd_of_mem_handleClient {conn : Connection} {app : σ} {e : SocketEvent}
    (he : e ∈ (handleClient handlers conn fd app).1) : e.fd = fd := by
  rcases handleClient_cases handlers conn fd app with h | ⟨req, -, h⟩
  · rw [h, List.mem_singleton] at he
    rw [he]
    rfl
  · rw [h, List.mem_cons, List.mem_singleton] at he
    rcases he with rfl | rfl <;> rfl

theorem after_handleClient (handlers : List (HandlerEntry σ)) (conn : Connection) (fd : ℕ)
    (app : σ) : Life.after fd .inUse (handleClient handlers conn fd app).1 = some .free := by
  rw [Life.after_of_forall_eq fun e => fd_of_mem_handleClient]
  rcases handleClient_cases handlers conn fd app with h | ⟨req, -, h⟩
  · rw [h]
    rfl
  · rw [h]
    rfl

section Clients

variable {isset : ℕ → Bool} {fds : List ℕ} {app : σ}

/-- The clients that were not ready stay. -/
theorem reduceOption_handleClients (handlers : List (HandlerEntry σ)) (isset : ℕ → Bool)
    (connection : ℕ → Connection) (fds : List ℕ) (app : σ) :
    (handleClients handlers isset connection fds app).1.reduceOption =
      fds.filter fun fd => !isset fd := by
  induction fds generalizing app with
  | nil => rfl
  | cons fd fds ih =>
    rw [handleClients]
    split
    case isTrue hset =>
      rw [List.filter_cons_of_neg (by simp [hset])]
      exact (List.reduceOption_cons_of_none _).trans (ih _)
    case isFalse hset =>
      rw [List.filter_cons_of_pos (by simp [hset])]
      exact (List.reduceOption_cons_of_some _ _).trans (congrArg (fd :: ·) (ih _))

theorem fd_of_mem_handleClients {e : SocketEvent}
    (he : e ∈ (handleClients handlers isset connection fds app).2.1) :
    e.fd ∈ fds ∧ isset e.fd := by
  induction fds generalizing app with
  | nil => cases he
  | cons fd fds ih =>
    rw [handleClients] at he
    split at he
    case isTrue hset =>
      rcases List.mem_append.1 he with he | he
      · rw [fd_of_mem_handleClient he]
        exact ⟨List.mem_cons_self, hset⟩
      · exact (ih he).imp_left (List.mem_cons_of_mem _)
    case isFalse => exact (ih he).imp_left (List.mem_cons_of_mem _)

/-- A client that is ready is closed. -/
theorem after_handleClients (hnodup : fds.Nodup) (hfd : fd ∈ fds) (hset : isset fd) :
    Life.after fd .inUse (handleClients handlers isset connection fds app).2.1 = some .free := by
  induction fds generalizing app with
  | nil => cases hfd
  | cons fd' fds ih =>
    obtain ⟨hnew, hnodup⟩ := List.nodup_cons.1 hnodup
    rw [handleClients]
    rcases List.mem_cons.1 hfd with rfl | hmem
    · -- the client comes first, and not again
      rw [if_pos hset]
      refine (Life.after_append _ _ _ _).trans ?_
      rw [after_handleClient]
      refine Life.after_of_forall_ne fun e he heq => hnew ?_
      rw [← heq]
      exact (fd_of_mem_handleClients he).1
    · split
      case isTrue =>
        refine (Life.after_append _ _ _ _).trans ?_
        rw [Life.after_of_forall_ne fun e he heq => hnew (by
          rw [← fd_of_mem_handleClient he, heq]
          exact hmem)]
        exact ih hnodup hmem
      case isFalse => exact ih hnodup hmem

end Clients

namespace HttpServer

def life (s : HttpServer σ) (fd : ℕ) : Life := if fd ∈ s.openFds then .inUse else .free

/-- The table has room, and no descriptor is in it twice. -/
structure Wf (s : HttpServer σ) : Prop where
  few : s.clientSocks.length ≤ MAX_CLIENTS
  nodup : s.openFds.Nodup

/-- What is done to descriptors takes each from where it was to where it is. -/
structure Moves (s : HttpServer σ) (events : List SocketEvent) (s' : HttpServer σ) : Prop where
  wf : s'.Wf
  life (fd : ℕ) : Life.after fd (s.life fd) events = some (s'.life fd)

theorem Moves.refl (hs : s.Wf) : s.Moves [] s := ⟨hs, fun _ => rfl⟩

theorem Moves.trans {s'' : HttpServer σ} (h : s.Moves trace s') (h' : s'.Moves events s'') :
    s.Moves (trace ++ events) s'' where
  wf := h'.wf
  life fd := by rw [Life.after_append, h.life fd, Option.bind_some, h'.life fd]

theorem life_of_mem (h : fd ∈ s.openFds) : s.life fd = .inUse := if_pos h

theorem life_of_not_mem (h : fd ∉ s.openFds) : s.life fd = .free := if_neg h

/-- A descriptor that is opened and closed again is as before. -/
theorem moves_of_dropped (hs : s.Wf) (hfresh : fd ∉ s.openFds) :
    s.Moves [.opened fd, .closed fd] s where
  wf := hs
  life fd' := by
    by_cases heq : fd' = fd
    · subst heq
      rw [life_of_not_mem hfresh, Life.after_of_forall_eq (by simp [SocketEvent.fd])]
      rfl
    · exact Life.after_of_forall_ne (by simp [SocketEvent.fd, Ne.symm heq])

/-- A descriptor that is opened is one more to close. -/
theorem moves_of_opened (hs' : s'.Wf) (hfresh : fd ∉ s.openFds)
    (hopen : ∀ fd', fd' ∈ s'.openFds ↔ fd' ∈ s.openFds ∨ fd' = fd) :
    s.Moves [.opened fd] s' where
  wf := hs'
  life fd' := by
    by_cases heq : fd' = fd
    · subst heq
      rw [life_of_not_mem hfresh, life_of_mem ((hopen fd').2 (.inr rfl)),
        Life.after_of_forall_eq (by simp [SocketEvent.fd])]
      rfl
    · have hsame : s'.life fd' = s.life fd' := by simp [life, hopen, heq]
      rw [hsame]
      exact Life.after_of_forall_ne (by simp [SocketEvent.fd, Ne.symm heq])

theorem moves_httpServerInit (hs : s.Wf) (env : InitEnv) (hclosed : s.serverFd = none)
    (hfresh : ∀ fd ∈ env.socket, fd ∉ s.openFds) :
    s.Moves (s.httpServerInit env).2.1 (s.httpServerInit env).2.2 := by
  have hsame : { s with serverFd := none } = s := by
    rw [← hclosed]
  rw [httpServerInit, hsame]
  cases hsocket : env.socket with
  | none => exact .refl hs
  | some fd =>
    have hnew := hfresh fd (by rw [hsocket]; rfl)
    dsimp only
    split
    · have hopen : ({ s with serverFd := some fd } : HttpServer σ).openFds = fd :: s.openFds := by
        rw [openFds, openFds, hclosed]
        rfl
      refine moves_of_opened ⟨hs.few, ?_⟩ hnew fun fd' => ?_
      · rw [hopen]
        exact List.nodup_cons.2 ⟨hnew, hs.nodup⟩
      · rw [hopen, List.mem_cons, or_comm]
    · exact moves_of_dropped hs hnew

theorem moves_acceptClient (hs : s.Wf) {client : Option ℕ}
    (hfresh : ∀ fd ∈ client, fd ∉ s.openFds) :
    s.Moves (s.acceptClient client).1 (s.acceptClient client).2 := by
  cases client with
  | none => exact .refl hs
  | some fd =>
    have hnew := hfresh fd rfl
    rw [acceptClient]
    split
    case isTrue hlt =>
      have hopen : ({ s with clientSocks := s.clientSocks ++ [fd] } : HttpServer σ).openFds =
          s.openFds ++ [fd] := by
        rw [openFds, openFds, List.append_assoc]
      refine moves_of_opened ⟨?_, ?_⟩ hnew fun fd' => ?_
      · rw [List.length_append]
        exact hlt
      · rw [hopen]
        exact hs.nodup.append (List.nodup_singleton fd) (by simpa using hnew)
      · rw [hopen, List.mem_append, List.mem_singleton]
    case isFalse => exact moves_of_dropped hs hnew

/-- Only clients are closed, each that is ready. -/
theorem moves_handleClients (hs : s.Wf) {isset : ℕ → Bool} {app : σ} (connection : ℕ → Connection) :
    s.Moves (handleClients s.handlers isset connection s.clientSocks s.app).2.1
      { s with
        clientSocks :=
          (handleClients s.handlers isset connection s.clientSocks s.app).1.reduceOption
        app := app } := by
  rw [reduceOption_handleClients]
  have hsub : (s.serverFd.toList ++ s.clientSocks.filter fun fd => !isset fd).Sublist s.openFds :=
    (List.Sublist.refl _).append List.filter_sublist
  refine ⟨⟨(List.length_filter_le _ _).trans hs.few, hs.nodup.sublist hsub⟩, fun fd => ?_⟩
  obtain ⟨-, hsocks, hdisjoint⟩ := List.nodup_append'.1 hs.nodup
  by_cases hready : fd ∈ s.clientSocks ∧ isset fd
  · -- it was in the table, and is not any more
    rw [life_of_mem (List.mem_append_right _ hready.1), life_of_not_mem]
    · exact after_handleClients hsocks hready.1 hready.2
    · rw [openFds, List.mem_append, List.mem_filter, hready.2]
      rintro (hserver | ⟨-, hset⟩)
      · exact hdisjoint hserver hready.1
      · exact absurd hset Bool.false_ne_true
  · rw [Life.after_of_forall_ne fun e he (heq : e.fd = fd) =>
      hready (heq ▸ fd_of_mem_handleClients he)]
    have hiff : fd ∈ s.clientSocks ∧ isset fd = false ↔ fd ∈ s.clientSocks := by
      rw [not_and, Bool.not_eq_true] at hready
      exact and_iff_left_of_imp hready
    simp [life, openFds, List.mem_filter, hiff]

/-- A call does nothing, or accepts and answers. -/
theorem httpServerPoll_cases (env : PollEnv) (s : HttpServer σ) :
    (s.httpServerPoll env).2 = ([], s) ∨ ∃ serverFd ready,
      s.serverFd = some serverFd ∧ env.selected = .ready ready ∧
        s.httpServerPoll env = (0, s.pollReady serverFd ready env) := by
  rw [httpServerPoll]
  cases hserver : s.serverFd with
  | none => exact .inl rfl
  | some serverFd =>
    cases hselected : env.selected with
    | failed eintr => exact .inl rfl
    | timeout => exact .inl rfl
    | ready ready => exact .inr ⟨serverFd, ready, rfl, rfl, rfl⟩

theorem moves_pollReady (hs : s.Wf) {serverFd : ℕ} {ready : ℕ → Bool} {env : PollEnv}
    (hfresh : ∀ fd ∈ env.accept, fd ∉ s.openFds) :
    s.Moves (s.pollReady serverFd ready env).1 (s.pollReady serverFd ready env).2 := by
  have haccepted : s.Moves (s.accepted serverFd ready env).1 (s.accepted serverFd ready env).2 := by
    rw [accepted]
    split
    · exact moves_acceptClient hs hfresh
    · exact .refl hs
  exact haccepted.trans (moves_handleClients haccepted.wf env.connection)

theorem moves_httpServerPoll (hs : s.Wf) {env : PollEnv}
    (hfresh : ∀ fd ∈ env.accept, fd ∉ s.openFds) :
    s.Moves (s.httpServerPoll env).2.1 (s.httpServerPoll env).2.2 := by
  rcases httpServerPoll_cases env s with h | ⟨serverFd, ready, -, -, h⟩
  · rw [h]
    exact .refl hs
  · rw [h]
    exact moves_pollReady hs hfresh

theorem moves_httpServerShutdown (hs : s.Wf) :
    s.Moves s.httpServerShutdown.1 s.httpServerShutdown.2 where
  wf := ⟨Nat.zero_le _, List.nodup_nil⟩
  life fd := by
    have hclosed : s.httpServerShutdown.2.life fd = .free := life_of_not_mem (List.not_mem_nil)
    rw [hclosed, httpServerShutdown]
    have hnodup := hs.nodup
    by_cases hfd : fd ∈ s.openFds
    · obtain ⟨before, after, hsplit⟩ := List.append_of_mem hfd
      rw [life_of_mem hfd, hsplit, List.map_append, List.map_cons]
      rw [hsplit, List.nodup_middle, List.nodup_cons, List.mem_append, not_or] at hnodup
      obtain ⟨⟨hbefore, hafter⟩, -⟩ := hnodup
      have hother {fds : List ℕ} (h : fd ∉ fds) (l : Life) :
          Life.after fd l (fds.map .closed) = some l := by
        refine Life.after_of_forall_ne fun e he heq => h ?_
        obtain ⟨fd', hfd', rfl⟩ := List.mem_map.1 he
        exact heq ▸ hfd'
      rw [Life.after_append, hother hbefore, Option.bind_some, ← List.singleton_append,
        Life.after_append, Life.after_of_forall_eq (by simp [SocketEvent.fd])]
      exact hother hafter .free
    · rw [life_of_not_mem hfd]
      refine Life.after_of_forall_ne fun e he heq => hfd ?_
      obtain ⟨fd', hfd', rfl⟩ := List.mem_map.1 he
      exact heq ▸ hfd'

theorem moves_of_runs {other : σ → σ → Prop} (hs : s.Wf) (h : Runs other s trace s') :
    s.Moves trace s' := by
  induction h with
  | refl => exact .refl hs
  | init _ env hclosed hfresh ih => exact ih.trans (moves_httpServerInit ih.wf env hclosed hfresh)
  | poll _ env hfresh ih => exact ih.trans (moves_httpServerPoll ih.wf hfresh)
  | shutdown _ ih => exact ih.trans (moves_httpServerShutdown ih.wf)
  | other _ _ ih => exact ⟨⟨ih.wf.few, ih.wf.nodup⟩, ih.life⟩

/-- The server before anything is called. -/
def new (handlers : List (HandlerEntry σ)) (app : σ) : HttpServer σ := ⟨none, [], handlers, app⟩

theorem wf_new (handlers : List (HandlerEntry σ)) (app : σ) : (new handlers app).Wf :=
  ⟨Nat.zero_le _, List.nodup_nil⟩

/-- Whatever clients and the network do: no more than eight clients are kept, no descriptor twice,
    and each that is opened is answered at most once and closed once, unless it is still kept. -/
theorem life_of_runs {app : σ} {other : σ → σ → Prop} (h : Runs other (new handlers app) trace s') :
    s'.clientSocks.length ≤ MAX_CLIENTS ∧ s'.openFds.Nodup ∧
      ∀ fd, Life.after fd .free trace = some (if fd ∈ s'.openFds then .inUse else .free) := by
  have hmoves := moves_of_runs (wf_new handlers app) h
  refine ⟨hmoves.wf.few, hmoves.wf.nodup, fun fd => ?_⟩
  have hlife := hmoves.life fd
  rwa [life_of_not_mem (List.not_mem_nil)] at hlife

end HttpServer

/-! ## One request at a time -/

/-- The requests of a trace applied one after the other: each is what its
    connection brings, and what is sent is what the handlers reply at that time. -/
inductive Served (handlers : List (HandlerEntry σ)) (other : σ → σ → Prop) :
    σ → List SocketEvent → σ → Prop
  | nil (app : σ) : Served handlers other app [] app
  | opened {trace : List SocketEvent} {app app' : σ} (fd : ℕ)
      (h : Served handlers other app trace app') :
      Served handlers other app (.opened fd :: trace) app'
  | closed {trace : List SocketEvent} {app app' : σ} (fd : ℕ)
      (h : Served handlers other app trace app') :
      Served handlers other app (.closed fd :: trace) app'
  | answered {trace : List SocketEvent} {app app' : σ} (fd : ℕ) {req : HttpRequest} {conn : Connection}
      (hreq : (parseHttpRequest conn.receiver).1 = some req)
      (h : Served handlers other (respondTo handlers req app).2 trace app') :
      Served handlers other app (.answered fd req
        (httpServerSendResponse (respondTo handlers req app).1 conn.sender).sent :: trace) app'
  | other {trace : List SocketEvent} {app app' app'' : σ} (hother : other app app')
      (h : Served handlers other app' trace app'') :
      Served handlers other app trace app''

namespace Served

variable {other : σ → σ → Prop} {app app' app'' : σ}

theorem append (h : Served handlers other app trace app')
    (h' : Served handlers other app' events app'') :
    Served handlers other app (trace ++ events) app'' := by
  induction h with
  | nil => exact h'
  | opened fd _ ih => exact (ih h').opened fd
  | closed fd _ ih => exact (ih h').closed fd
  | answered fd hreq _ ih => exact (ih h').answered fd hreq
  | other hother _ ih => exact (ih h').other hother

theorem of_handleClient (handlers : List (HandlerEntry σ)) (other : σ → σ → Prop)
    (conn : Connection) (fd : ℕ) (app : σ) :
    Served handlers other app (handleClient handlers conn fd app).1
      (handleClient handlers conn fd app).2 := by
  rcases handleClient_cases handlers conn fd app with h | ⟨req, hreq, h⟩
  · rw [h]
    exact (nil app).closed fd
  · rw [h]
    exact ((nil _).closed fd).answered fd hreq

theorem of_handleClients (handlers : List (HandlerEntry σ)) (other : σ → σ → Prop)
    (isset : ℕ → Bool) (connection : ℕ → Connection) (fds : List ℕ) (app : σ) :
    Served handlers other app (handleClients handlers isset connection fds app).2.1
      (handleClients handlers isset connection fds app).2.2 := by
  induction fds generalizing app with
  | nil => exact nil app
  | cons fd fds ih =>
    rw [handleClients]
    split
    · exact (of_handleClient handlers other (connection fd) fd app).append (ih _)
    · exact ih app

/-- A state from which the requests are applied, in the middle of a trace. -/
theorem exists_answered {fd : ℕ} {req : HttpRequest} {sent : Bytes} {before after : List SocketEvent}
    (h : Served handlers other app (before ++ .answered fd req sent :: after) app') :
    ∃ app₁, ∃ conn : Connection, (parseHttpRequest conn.receiver).1 = some req ∧
      Served handlers other app before app₁ ∧
      sent = (httpServerSendResponse (respondTo handlers req app₁).1 conn.sender).sent ∧
      Served handlers other (respondTo handlers req app₁).2 after app' := by
  generalize htrace : before ++ .answered fd req sent :: after = trace at h
  induction h generalizing before with
  | nil => exact absurd htrace (by simp)
  | opened fd' h ih =>
    cases before with
    | nil => cases htrace
    | cons e before =>
      obtain ⟨rfl, htail⟩ := List.cons.inj htrace
      obtain ⟨app₁, conn, hreq, hbefore, hsent, hafter⟩ := ih htail
      exact ⟨app₁, conn, hreq, hbefore.opened fd', hsent, hafter⟩
  | closed fd' h ih =>
    cases before with
    | nil => cases htrace
    | cons e before =>
      obtain ⟨rfl, htail⟩ := List.cons.inj htrace
      obtain ⟨app₁, conn, hreq, hbefore, hsent, hafter⟩ := ih htail
      exact ⟨app₁, conn, hreq, hbefore.closed fd', hsent, hafter⟩
  | @answered _ app _ fd' req' conn' hreq' h ih =>
    cases before with
    | nil =>
      obtain ⟨heq, rfl⟩ := List.cons.inj htrace
      obtain ⟨rfl, rfl, hsent⟩ := SocketEvent.answered.inj heq
      exact ⟨app, conn', hreq', nil app, hsent, h⟩
    | cons e before =>
      obtain ⟨rfl, htail⟩ := List.cons.inj htrace
      obtain ⟨app₁, conn, hreq, hbefore, hsent, hafter⟩ := ih htail
      exact ⟨app₁, conn, hreq, hbefore.answered fd' hreq', hsent, hafter⟩
  | other hother h ih =>
    obtain ⟨app₁, conn, hreq, hbefore, hsent, hafter⟩ := ih htrace
    exact ⟨app₁, conn, hreq, hbefore.other hother, hsent, hafter⟩

end Served

namespace HttpServer

variable {other : σ → σ → Prop}

theorem served_httpServerInit (other : σ → σ → Prop) (env : InitEnv) (s : HttpServer σ) :
    (s.httpServerInit env).2.2.handlers = s.handlers ∧
      Served s.handlers other s.app (s.httpServerInit env).2.1 (s.httpServerInit env).2.2.app := by
  rw [httpServerInit]
  cases env.socket with
  | none => exact ⟨rfl, .nil _⟩
  | some fd =>
    dsimp only
    split
    · exact ⟨rfl, (Served.nil _).opened fd⟩
    · exact ⟨rfl, ((Served.nil _).closed fd).opened fd⟩

theorem served_acceptClient (other : σ → σ → Prop) (client : Option ℕ) (s : HttpServer σ) :
    (s.acceptClient client).2.handlers = s.handlers ∧
      Served s.handlers other s.app (s.acceptClient client).1 (s.acceptClient client).2.app := by
  cases client with
  | none => exact ⟨rfl, .nil _⟩
  | some fd =>
    rw [acceptClient]
    split
    · exact ⟨rfl, (Served.nil _).opened fd⟩
    · exact ⟨rfl, ((Served.nil _).closed fd).opened fd⟩

theorem mem_acceptClient (client : Option ℕ) (hfd : fd ∈ s.clientSocks) :
    fd ∈ (s.acceptClient client).2.clientSocks := by
  cases client with
  | none => exact hfd
  | some client =>
    rw [acceptClient]
    split
    · exact List.mem_append_left _ hfd
    · exact hfd

theorem served_httpServerPoll (other : σ → σ → Prop) (env : PollEnv) (s : HttpServer σ) :
    (s.httpServerPoll env).2.2.handlers = s.handlers ∧
      Served s.handlers other s.app (s.httpServerPoll env).2.1 (s.httpServerPoll env).2.2.app := by
  rcases httpServerPoll_cases env s with h | ⟨serverFd, ready, -, -, h⟩
  · rw [h]
    exact ⟨rfl, .nil _⟩
  · rw [h]
    have haccepted : (s.accepted serverFd ready env).2.handlers = s.handlers ∧
        Served s.handlers other s.app (s.accepted serverFd ready env).1
          (s.accepted serverFd ready env).2.app := by
      rw [accepted]
      split
      · exact served_acceptClient other _ _
      · exact ⟨rfl, .nil _⟩
    obtain ⟨hhandlers, hserved⟩ := haccepted
    have hclients := Served.of_handleClients (s.accepted serverFd ready env).2.handlers
      other (s.isset ready) env.connection (s.accepted serverFd ready env).2.clientSocks
      (s.accepted serverFd ready env).2.app
    refine ⟨hhandlers, hserved.append ?_⟩
    rw [← hhandlers]
    exact hclients

theorem served_closed (fds : List ℕ) (app : σ) :
    Served handlers other app (fds.map .closed) app := by
  induction fds with
  | nil => exact .nil app
  | cons fd fds ih => exact ih.closed fd

/-- The server applies requests one at a time, in the order in which it answers them: its state and
    what clients receive are those of one machine that serves one request after the other. -/
theorem served_of_runs (h : Runs other s trace s') :
    s'.handlers = s.handlers ∧ Served s.handlers other s.app trace s'.app := by
  induction h with
  | refl => exact ⟨rfl, .nil _⟩
  | @init trace s₁ _ env _ _ ih =>
    obtain ⟨hhandlers, hserved⟩ := served_httpServerInit other env s₁
    rw [ih.1] at hhandlers hserved
    exact ⟨hhandlers, ih.2.append hserved⟩
  | @poll trace s₁ _ env _ ih =>
    obtain ⟨hhandlers, hserved⟩ := served_httpServerPoll other env s₁
    rw [ih.1] at hhandlers hserved
    exact ⟨hhandlers, ih.2.append hserved⟩
  | shutdown _ ih => exact ⟨ih.1, ih.2.append (served_closed _ _)⟩
  | other _ hother ih =>
    refine ⟨ih.1, ?_⟩
    have hlast := ih.2.append ((Served.nil _).other hother)
    rwa [List.append_nil] at hlast

/-! ## What a client gets -/

theorem answered_of_handleClients (handlers : List (HandlerEntry σ)) (other : σ → σ → Prop)
    {isset : ℕ → Bool} {fds : List ℕ} (app : σ) {req : HttpRequest}
    (hfd : fd ∈ fds) (hset : isset fd)
    (hreq : (parseHttpRequest (connection fd).receiver).1 = some req) :
    ∃ before after app₁, (handleClients handlers isset connection fds app).2.1 = before ++
        .answered fd req (httpServerSendResponse (respondTo handlers req app₁).1
          (connection fd).sender).sent :: after ∧
      Served handlers other app before app₁ := by
  induction fds generalizing app with
  | nil => cases hfd
  | cons fd' fds ih =>
    rw [handleClients]
    by_cases heq : fd' = fd
    · subst heq
      rw [if_pos hset]
      rcases handleClient_cases handlers (connection fd') fd' app with h | ⟨req', hreq', h⟩
      · rw [handleClient] at h
        rcases hparse : parseHttpRequest (connection fd').receiver with ⟨_ | req', r⟩
        · rw [hparse] at hreq
          cases hreq
        · rw [hparse] at h
          exact absurd (congrArg Prod.fst h) (by simp)
      · obtain rfl := Option.some.inj (hreq.symm.trans hreq')
        rw [h]
        exact ⟨[], _, app, rfl, .nil app⟩
    · have hmem : fd ∈ fds := (List.mem_cons.1 hfd).resolve_left (Ne.symm heq)
      split
      case isTrue =>
        obtain ⟨before, after, app₁, hevents, hserved⟩ :=
          ih (handleClient handlers (connection fd') fd' app).2 hmem
        refine ⟨(handleClient handlers (connection fd') fd' app).1 ++ before, after, app₁, ?_,
          (Served.of_handleClient handlers other (connection fd') fd' app).append hserved⟩
        dsimp only
        rw [hevents, List.append_assoc]
      case isFalse => exact ih app hmem

/-- A client that is ready, and whose request comes with its head in the first segment, is answered
    in that call: it reads what its handler replies to the request, in the state that the requests
    answered before it have led to. -/
theorem reply_of_ready (other : σ → σ → Prop) {serverFd : ℕ} {ready : ℕ → Bool} {env : PollEnv}
    {f : ClientRequest}
    {rest : Bytes} (hserver : s.serverFd = some serverFd) (hselected : env.selected = .ready ready)
    (hfd : fd ∈ s.clientSocks) (hready : ready fd)
    (hunread : (env.connection fd).receiver.unread = f.encode ++ rest)
    (hhead : f.head.length ≤ firstSegment (env.connection fd).receiver)
    (htakes : (env.connection fd).sender.Takes) :
    ∃ before after app sent,
      (s.httpServerPoll env).2.1 = before ++ .answered fd f.parsed sent :: after ∧
      Served s.handlers other s.app before app ∧
      ((respondTo s.handlers f.parsed app).1.Framed →
        readResponse sent = some ((respondTo s.handlers f.parsed app).1.statusCode,
          (respondTo s.handlers f.parsed app).1.contentType,
          (respondTo s.handlers f.parsed app).1.body)) := by
  have hreq := f.parseHttpRequest_of_head hunread hhead
  have hmem : fd ∈ s.openFds := List.mem_append_right _ hfd
  have hset : s.isset ready fd := by rw [isset, decide_eq_true hmem, hready]; rfl
  have haccepted : (s.accepted serverFd ready env).2.handlers = s.handlers ∧
      Served s.handlers other s.app (s.accepted serverFd ready env).1
        (s.accepted serverFd ready env).2.app ∧
      fd ∈ (s.accepted serverFd ready env).2.clientSocks := by
    rw [accepted]
    split
    · obtain ⟨hhandlers, hserved⟩ := served_acceptClient other env.accept s
      exact ⟨hhandlers, hserved, mem_acceptClient _ hfd⟩
    · exact ⟨rfl, .nil _, hfd⟩
  obtain ⟨hhandlers, hserved, hfd'⟩ := haccepted
  obtain ⟨before, after, app, hevents, hserved'⟩ := answered_of_handleClients
    (s.accepted serverFd ready env).2.handlers other (s.accepted serverFd ready env).2.app hfd' hset hreq
  rw [hhandlers] at hserved' hevents
  refine ⟨(s.accepted serverFd ready env).1 ++ before, after, app, _, ?_, hserved.append hserved',
    fun hframed => (readResponse_sent hframed rfl).resolve_right fun h => h.2 htakes⟩
  rw [httpServerPoll, hserver]
  dsimp only
  rw [hselected]
  dsimp only
  rw [pollReady]
  dsimp only
  rw [hhandlers, hevents, List.append_assoc]

/-- Whatever the network does, in every run: a client that is answered reads what its handler
    replies to the request it sent, in the state that the requests before it have led to, or it
    reads no response. -/
theorem reply_of_runs (h : Runs other s trace s') {req : HttpRequest} {sent : Bytes}
    {before after : List SocketEvent} (htrace : trace = before ++ .answered fd req sent :: after) :
    ∃ app, ∃ conn : Connection, (parseHttpRequest conn.receiver).1 = some req ∧
      Served s.handlers other s.app before app ∧
      ((respondTo s.handlers req app).1.Framed →
        readResponse sent = some ((respondTo s.handlers req app).1.statusCode,
          (respondTo s.handlers req app).1.contentType, (respondTo s.handlers req app).1.body) ∨
        readResponse sent = none) := by
  have hserved := (served_of_runs h).2
  rw [htrace] at hserved
  obtain ⟨app, conn, hreq, hbefore, rfl, -⟩ := hserved.exists_answered
  exact ⟨app, conn, hreq, hbefore, fun hframed => (readResponse_sent hframed rfl).imp_right And.left⟩

end HttpServer

/-! ### A server that counts -/

/-- The reply is how many requests came before. -/
def countRequests (_ : HttpRequest) (n : ℕ) : Option HttpResponse × ℕ :=
  (some ⟨200, lit "text/plain", Decimal.print n, (Decimal.print n).length⟩, n + 1)

/-- Descriptor 3 listens, 4 is a client. -/
def countServer : HttpServer ℕ where
  serverFd := some 3
  clientSocks := [4]
  handlers := httpServerRegister (lit "/api/") countRequests []
  app := 0

def newCountServer : HttpServer ℕ :=
  .new (httpServerRegister (lit "/api/") countRequests []) 0

/-- The client sends a request whose body comes later, a further client connects. -/
def countEnv : PollEnv where
  selected := .ready fun _ => true
  accept := some 5
  connection _ := ⟨inTwo startRequest.head.length startRequest.encode, fun _ => some 7⟩

def initEnv : InitEnv := ⟨some 3, true, true⟩

def acceptEnv : PollEnv := { countEnv with accept := some 4 }

/-- The server is started, and accepts the client before it answers it. -/
theorem runs_countServer : Runs (fun _ _ => False) newCountServer
    ([.opened 3] ++ [.opened 4] ++ (countServer.httpServerPoll countEnv).2.1)
    (countServer.httpServerPoll countEnv).2.2 :=
  have hnew : Runs (fun _ _ => False) newCountServer [] newCountServer := .refl
  have hinit := hnew.init initEnv rfl (by decide)
  have haccept := hinit.poll acceptEnv (by decide)
  haccept.poll countEnv (by decide)

theorem life_of_runs_countServer :
    (countServer.httpServerPoll countEnv).2.2.clientSocks.length ≤ MAX_CLIENTS ∧
      (countServer.httpServerPoll countEnv).2.2.openFds.Nodup ∧
      ∀ fd, Life.after fd .free
          ([.opened 3] ++ [.opened 4] ++ (countServer.httpServerPoll countEnv).2.1) =
        some (if fd ∈ (countServer.httpServerPoll countEnv).2.2.openFds then .inUse else .free) :=
  HttpServer.life_of_runs runs_countServer

theorem reply_of_ready_countServer : ∃ before after app sent,
    (countServer.httpServerPoll countEnv).2.1 =
        before ++ .answered 4 startRequest.parsed sent :: after ∧
      Served countServer.handlers (fun _ _ => False) 0 before app ∧
      ((respondTo countServer.handlers startRequest.parsed app).1.Framed →
        readResponse sent = some
          ((respondTo countServer.handlers startRequest.parsed app).1.statusCode,
            (respondTo countServer.handlers startRequest.parsed app).1.contentType,
            (respondTo countServer.handlers startRequest.parsed app).1.body)) :=
  HttpServer.reply_of_ready (s := countServer) _ rfl
    (rfl : countEnv.selected = .ready fun _ => true) (by decide) rfl
    (List.append_nil startRequest.encode).symm (by decide +kernel)
    fun _ => ⟨6, rfl⟩

theorem reply_of_runs_countServer : ∃ before after sent,
    [.opened 3] ++ [.opened 4] ++ (countServer.httpServerPoll countEnv).2.1 =
        before ++ .answered 4 startRequest.parsed sent :: after ∧
      ∃ app, ∃ conn : Connection, (parseHttpRequest conn.receiver).1 = some startRequest.parsed ∧
        Served newCountServer.handlers (fun _ _ => False) 0 before app ∧
        ((respondTo newCountServer.handlers startRequest.parsed app).1.Framed →
          readResponse sent = some
            ((respondTo newCountServer.handlers startRequest.parsed app).1.statusCode,
              (respondTo newCountServer.handlers startRequest.parsed app).1.contentType,
              (respondTo newCountServer.handlers startRequest.parsed app).1.body) ∨
          readResponse sent = none) := by
  obtain ⟨before, after, -, sent, hevents, -⟩ := reply_of_ready_countServer
  have htrace : [.opened 3] ++ [.opened 4] ++ (countServer.httpServerPoll countEnv).2.1 =
      ([.opened 3] ++ [.opened 4] ++ before) ++ .answered 4 startRequest.parsed sent :: after := by
    simp only [hevents, List.append_assoc]
  exact ⟨_, after, sent, htrace, HttpServer.reply_of_runs runs_countServer htrace⟩

end PS5Torrent
