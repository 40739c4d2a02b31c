import Codechiev.Net.TcpServer

/-!
# The loop of `net::TcpServer`

`EventLoop::loop` alternates between `EPoll::poll`, which fills a vector, and `pollEvent`, which
goes through it. The steps below are those of the loop thread, down to one turn of the loops in
`onRead` and `onWrite`, and the sends of any thread between them. `onClose` is virtual, so the one
that `onRead` calls is the server's, which frees the descriptor before it erases the map entry. The
log has, for each connection, the places where the callbacks are called and the descriptor is
closed.
-/

namespace Codechiev

/-! ## The life of one connection -/

/-- What a connection sees: the three callbacks, and the `::close` of its descriptor. -/
inductive ServerEvent where
  | onConnect
  | onData
  | close
  | onClose
  deriving DecidableEq

/-- What the server knows of a pointer. -/
inductive Phase where
  | fresh
  | connected
  | gone
  deriving DecidableEq

/-- The histories that lead to a phase. -/
inductive Lived : Phase → List ServerEvent → Prop where
  | fresh : Lived .fresh []
  | onConnect {h : List ServerEvent} : Lived .fresh h → Lived .connected (h ++ [.onConnect])
  | onData {h : List ServerEvent} : Lived .connected h → Lived .connected (h ++ [.onData])
  | onClose {h : List ServerEvent} : Lived .connected h → Lived .gone (h ++ [.close, .onClose])

/-- `onConnect_` once, then `onData_` any number of times, then the descriptor closed and
    `onClose_` called, or not yet. -/
def Protocol (h : List ServerEvent) : Prop :=
  ∃ n, h = .onConnect :: List.replicate n .onData ∨
    h = .onConnect :: List.replicate n .onData ++ [.close, .onClose]

namespace Lived

variable {ph : Phase} {h : List ServerEvent}

theorem eq_nil (hl : Lived .fresh h) : h = [] := by
  cases hl
  rfl

theorem talking (hl : Lived .connected h) :
    ∃ n, h = .onConnect :: List.replicate n .onData := by
  generalize hph : Phase.connected = ph at hl
  induction hl with
  | fresh => cases hph
  | onConnect hfresh =>
    refine ⟨0, ?_⟩
    rw [hfresh.eq_nil]
    rfl
  | onData _ ih =>
    obtain ⟨n, rfl⟩ := ih hph
    exact ⟨n + 1, by rw [List.replicate_succ', List.cons_append]⟩
  | onClose => cases hph

theorem protocol (hl : Lived ph h) (hne : ph ≠ .fresh) : Protocol h := by
  cases hl with
  | fresh => exact absurd rfl hne
  | onConnect hfresh =>
    obtain ⟨n, hn⟩ := (Lived.onConnect hfresh).talking
    exact ⟨n, .inl hn⟩
  | onData htalk =>
    obtain ⟨n, hn⟩ := htalk.onData.talking
    exact ⟨n, .inl hn⟩
  | onClose htalk =>
    obtain ⟨n, rfl⟩ := htalk.talking
    exact ⟨n, .inr rfl⟩

/-- The phase can be read off the history. -/
theorem connected_iff (hl : Lived ph h) :
    ph = .connected ↔ .onConnect ∈ h ∧ .close ∉ h := by
  have htalk : ∀ {h}, Lived .connected h → .onConnect ∈ h ∧ .close ∉ h := by
    intro h hl
    obtain ⟨n, rfl⟩ := hl.talking
    simp
  constructor
  · rintro rfl
    exact htalk hl
  · intro hmem
    cases hl with
    | fresh => cases hmem.1
    | onConnect => rfl
    | onData => rfl
    | onClose => exact absurd (by simp) hmem.2

end Lived

namespace Endpoint

variable {e : Endpoint} {p q : Ptr} {c : Channel} {fd : Fd} {io : ChannelCall}

/-- Connected is the channel that owns the descriptor it has the number of. -/
def phase (e : Endpoint) (p : Ptr) : Phase :=
  match e.heap p with
  | none => .fresh
  | some c => if e.fds c.fd = some p then .connected else .gone

theorem phase_of_none (h : e.heap p = none) : e.phase p = .fresh := by
  rw [phase, h]

theorem phase_of_some (h : e.heap p = some c) :
    e.phase p = if e.fds c.fd = some p then .connected else .gone := by
  rw [phase, h]

theorem phase_connected : e.phase p = .connected ↔ ∃ c, e.Open p c := by
  cases hc : e.heap p with
  | none =>
    rw [phase_of_none hc]
    constructor
    · intro h
      cases h
    · rintro ⟨c, hopen⟩
      cases hc.symm.trans hopen.1
  | some c =>
    rw [phase_of_some hc]
    constructor
    · intro h
      split at h
      · rename_i hfd
        exact ⟨c, hc, hfd⟩
      · cases h
    · rintro ⟨c', hc', hfd⟩
      obtain rfl : c = c' := Option.some.inj (hc.symm.trans hc')
      exact if_pos hfd

theorem Open.phase (h : e.Open p c) : e.phase p = .connected := phase_connected.mpr ⟨c, h⟩

/-- A call on a channel that keeps the descriptor keeps every phase. -/
theorem phase_store (hc : e.heap p = some c) (hfd : io.channel.fd = c.fd) :
    (e.store p io).phase = e.phase := by
  funext q
  by_cases heq : q = p
  · subst heq
    rw [phase_of_some (store_heap_self e q io), phase_of_some hc, hfd]
    rfl
  · simp only [phase, store_heap_of_ne heq]
    rfl

theorem phase_send {msg : List UInt8} : (e.send p msg).phase = e.phase := by
  simp only [send]
  split
  · rename_i c hc
    exact phase_store hc (TcpEndpoint.write_local p (e.call c 0) msg).fd_eq
  · rfl

theorem phase_addChannel_self (events : EventMask) :
    (e.addChannel p fd events).phase p = .connected :=
  Open.phase ⟨addChannel_heap_self e p fd events, addChannel_fds_self e p fd events⟩

theorem phase_addChannel_of_ne {events : EventMask} (hfd : e.fds fd = none) (hne : q ≠ p) :
    (e.addChannel p fd events).phase q = e.phase q := by
  have hfds : ∀ fd', (e.addChannel p fd events).fds fd' = some q ↔ e.fds fd' = some q := by
    intro fd'
    by_cases heq : fd' = fd
    · -- the number was free, and belongs to another channel now
      subst heq
      rw [addChannel_fds_self, hfd]
      simp [Ne.symm hne]
    · rw [addChannel_fds_of_ne heq]
  simp only [phase, addChannel_heap_of_ne hne, hfds]

theorem phase_onClose_self : (e.onClose p c).phase p = .gone := by
  rw [phase_of_some (onClose_heap_self e p c)]
  show (if (e.onClose p c).fds c.fd = some p then Phase.connected else .gone) = .gone
  rw [onClose_fds_self]
  rfl

theorem phase_onClose_of_ne (hopen : e.Open p c) (hne : q ≠ p) :
    (e.onClose p c).phase q = e.phase q := by
  have hfds : ∀ fd, (e.onClose p c).fds fd = some q ↔ e.fds fd = some q := by
    intro fd
    by_cases heq : fd = c.fd
    · subst heq
      rw [onClose_fds_self, hopen.2]
      simp [Ne.symm hne]
    · rw [onClose_fds_of_ne heq]
  simp only [phase, onClose_heap_of_ne hne, hfds]

end Endpoint

/-! ## The steps of the loop -/

/-- Where the loop thread is: in `EPoll::poll`, between two elements of the vector, in `onRead` or
    `onWrite` with its `errno`, or at the test for `EPOLLOUT` or for a hang-up. -/
inductive LoopStage where
  | polling
  | handling
  | reading (p : Ptr) (errno : Errno)
  | writeTest (p : Ptr)
  | writing (p : Ptr) (errno : Errno)
  | closeTest (p : Ptr)
  deriving DecidableEq

/-- The channel that `pollEvent` is working on. -/
def LoopStage.current : LoopStage → Option Ptr
  | polling | handling => none
  | reading p _ | writeTest p | writing p _ | closeTest p => some p

/-- The server, where its loop thread is, and what each connection has seen. -/
structure ServerLoop extends TcpServer where
  stage : LoopStage
  log : List (Ptr × ServerEvent)

/-- One step. `left` is what `onData_` leaves of the read buffer, if it is called. -/
inductive ServerLoopStep where
  | poll (p : Ptr) (events : EventMask)
  | handle
  | accept (p : Ptr) (fd : Fd)
  | acceptFails
  | readTest (p : Ptr) (errno : Errno)
  | read (r : ReadResult) (left : ChannelBuffer)
  | writeTest (errno : Errno)
  | write (r : WriteResult)
  | closeTest
  | erase
  | done
  | send (p : Ptr) (msg : List UInt8)

namespace ServerLoop

def empty : ServerLoop := { toTcpServer := .empty, stage := .polling, log := [] }

/-- What the connection at `p` has seen. -/
def history (s : ServerLoop) (p : Ptr) : List ServerEvent :=
  (s.log.filter fun x => x.1 = p).map Prod.snd

/-- The connection at `p` sees these events. -/
def note (s : ServerLoop) (p : Ptr) (events : List ServerEvent) : ServerLoop :=
  { s with log := s.log ++ events.map fun e => (p, e) }

/-- A call on the channel at `p` returned. -/
def store (s : ServerLoop) (p : Ptr) (io : ChannelCall) (stage : LoopStage) : ServerLoop :=
  { s with toEndpoint := s.toEndpoint.store p io, stage := stage }

/-- `TcpServer::onConnect`. -/
def onConnect (s : ServerLoop) (p : Ptr) (fd : Fd) : ServerLoop :=
  { s with toTcpServer := s.toTcpServer.onConnect p fd }.note p [.onConnect]

/-- `TcpServer::onClose` up to its `erase`. Either caller goes on with the next element. -/
def onClose (s : ServerLoop) (p : Ptr) (c : Channel) : ServerLoop :=
  { s with toTcpServer := s.toTcpServer.onClose p c, stage := .handling }.note p
    [.close, .onClose]

/-- The body of the loop in `pollEvent` is done with the channel at `p`. -/
def next (s : ServerLoop) (p : Ptr) : ServerLoop :=
  { s with polled := s.polled.filter (· ≠ p), stage := .handling }

/-- One turn of the loop in `onRead`, which goes on or returns. -/
def onRead (s : ServerLoop) (p : Ptr) (left : ChannelBuffer) :
    ChannelCall × Option ReadExit → ServerLoop
  | (io, none) => s.store p io (.reading p io.errno)
  | (io, some .closing) => (s.store p io .handling).onClose p io.channel
  | (io, some .delivering) =>
    let io := { io with channel := { io.channel with readbuf := left } }
    (s.store p io (.writeTest p)).note p [.onData]
  | (io, some .waiting) | (io, some .failed) => s.store p io (.writeTest p)

/-- One turn of the loop in `onWrite`. -/
def onWrite (s : ServerLoop) (p : Ptr) : ChannelCall × Option Bool → ServerLoop
  | (io, none) => s.store p io (.writing p io.errno)
  | (io, some true) => (s.store p io .handling).next p
  | (io, some false) => s.store p io (.closeTest p)

/-- The steps. The listening socket stays open, so `::accept` returns another number, and a
    connection is told from it by that. Epoll reports what is registered, once in a batch. -/
inductive Step (listener : Fd) (hasOnData : Bool) :
    ServerLoop → ServerLoopStep → ServerLoop → Prop where
  | poll {s : ServerLoop} {p : Ptr} {c : Channel} {events : EventMask}
      (hstage : s.stage = .polling) (honce : p ∉ s.polled) (hreg : s.Registered p)
      (hc : s.heap p = some c) :
      Step listener hasOnData s (.poll p events)
        { s with toTcpServer := s.toTcpServer.poll p c events }
  | handle {s : ServerLoop} (hstage : s.stage = .polling) :
      Step listener hasOnData s .handle { s with stage := .handling }
  | accept {s : ServerLoop} {p : Ptr} {fd : Fd} (hstage : s.stage = .handling)
      (hloop : s.closing = none) (hp : s.heap p = none) (hfd : s.fds fd = none)
      (hlistener : fd ≠ listener) :
      Step listener hasOnData s (.accept p fd) (s.onConnect p fd)
  | acceptFails {s : ServerLoop} (hstage : s.stage = .handling) (hloop : s.closing = none) :
      Step listener hasOnData s .acceptFails s
  | readTest {s : ServerLoop} {p : Ptr} {c : Channel} {errno : Errno}
      (hstage : s.stage = .handling) (hloop : s.closing = none) (hp : p ∈ s.polled)
      (hc : s.heap p = some c) (hlistener : c.fd ≠ listener) :
      Step listener hasOnData s (.readTest p errno)
        { s with stage := if c.event &&& EPOLLIN ≠ 0 then .reading p errno else .writeTest p }
  | read {s : ServerLoop} {p : Ptr} {c : Channel} {errno : Errno} {r : ReadResult}
      {left : ChannelBuffer} (hstage : s.stage = .reading p errno) (hc : s.heap p = some c) :
      Step listener hasOnData s (.read r left)
        (s.onRead p left (TcpEndpoint.onReadIter p hasOnData (s.call c errno) r))
  | writeTest {s : ServerLoop} {p : Ptr} {c : Channel} {errno : Errno}
      (hstage : s.stage = .writeTest p) (hc : s.heap p = some c) :
      Step listener hasOnData s (.writeTest errno)
        { s with stage := if c.event &&& EPOLLOUT ≠ 0 then .writing p errno else .closeTest p }
  | write {s : ServerLoop} {p : Ptr} {c : Channel} {errno : Errno} {r : WriteResult}
      (hstage : s.stage = .writing p errno) (hc : s.heap p = some c) :
      Step listener hasOnData s (.write r)
        (s.onWrite p (TcpEndpoint.onWriteIter p (s.call c errno) r))
  | closeTest {s : ServerLoop} {p : Ptr} {c : Channel} (hstage : s.stage = .closeTest p)
      (hc : s.heap p = some c) :
      Step listener hasOnData s .closeTest
        (if c.event &&& (EPOLLHUP ||| EPOLLRDHUP) ≠ 0 then s.onClose p c else s.next p)
  | erase {s : ServerLoop} {fd : Fd} (hloop : s.closing = some fd) :
      Step listener hasOnData s .erase { s with toTcpServer := s.toTcpServer.erase fd }
  | done {s : ServerLoop} (hstage : s.stage = .handling) (hloop : s.closing = none)
      (hp : s.polled = []) :
      Step listener hasOnData s .done { s with stage := .polling }
  | send {s : ServerLoop} {p : Ptr} {c : Channel} {msg : List UInt8} (hopen : s.Open p c) :
      Step listener hasOnData s (.send p msg) { s with toEndpoint := s.toEndpoint.send p msg }

/-- The runs of the loop of a server on which nobody is connected at first. -/
def serverLoopRuns (listener : Fd) (hasOnData : Bool) :
    LabelledSystem ServerLoop ServerLoopStep where
  init s := s = .empty
  step := Step listener hasOnData

/-- The loop is not handling an event. -/
def BetweenEvents (s : ServerLoop) : Prop :=
  (s.stage = .polling ∨ s.stage = .handling) ∧ s.closing = none

/-- The connection at `p` has been accepted and its descriptor is not closed. -/
def Connected (s : ServerLoop) (p : Ptr) : Prop :=
  .onConnect ∈ s.history p ∧ .close ∉ s.history p

/-! ## The invariant -/

section

variable (s : ServerLoop) (p : Ptr) (events : List ServerEvent)

theorem history_note_self : (s.note p events).history p = s.history p ++ events := by
  have hself : (events.map fun e => (p, e)).filter (fun x => x.1 = p) =
      events.map fun e => (p, e) := by
    rw [List.filter_eq_self]
    intro x hx
    obtain ⟨e, -, rfl⟩ := List.mem_map.mp hx
    exact decide_eq_true rfl
  show ((s.log ++ _).filter _).map _ = _
  rw [List.filter_append, List.map_append, hself, List.map_map]
  exact congrArg _ (List.map_id events)

theorem history_note_of_ne {q : Ptr} (hne : q ≠ p) :
    (s.note p events).history q = s.history q := by
  have hnone : (events.map fun e => (p, e)).filter (fun x => x.1 = q) = [] := by
    rw [List.filter_eq_nil_iff]
    intro x hx
    obtain ⟨e, -, rfl⟩ := List.mem_map.mp hx
    simpa using Ne.symm hne
  show ((s.log ++ _).filter _).map _ = _
  rw [List.filter_append, hnone, List.append_nil]
  rfl

end

/-- The server is accounted for, an entry of `channels_` is that of an open descriptor until its
    `erase` is due, the loop thread works on a channel of the batch, and every connection has seen
    what its phase says. -/
structure Orderly (listener : Fd) (s : ServerLoop) : Prop where
  accounted : s.Accounted
  entry : ∀ fd p, s.channels fd = some p → s.closing ≠ some fd → s.fds fd = some p
  apart : s.fds listener = none
  current_polled : ∀ p, s.stage.current = some p → p ∈ s.polled
  closing_none : s.stage ≠ .handling → s.closing = none
  lived : ∀ p, Lived (s.phase p) (s.history p)

namespace Orderly

open Endpoint

variable {listener : Fd} {s : ServerLoop} {p : Ptr} {c : Channel} {fd : Fd} {io : ChannelCall}
  {errno : Errno} {stage : LoopStage}

theorem empty : Orderly listener .empty where
  accounted := TcpServer.Accounted.empty
  entry _ _ h := by cases h
  apart := rfl
  current_polled _ h := by cases h
  closing_none _ := rfl
  lived _ := Lived.fresh

/-- What one connection sees when its phase changes leaves the others as they were. -/
theorem lived_note {events : List ServerEvent} (h : s.Orderly listener) (s' : ServerLoop)
    (hlog : s'.log = s.log) (hothers : ∀ q, q ≠ p → s'.phase q = s.phase q)
    (hself : Lived (s'.phase p) (s.history p ++ events)) :
    ∀ q, Lived (s'.phase q) ((s'.note p events).history q) := by
  have hhistory : ∀ q, s'.history q = s.history q := by
    intro q
    rw [history, hlog]
    rfl
  intro q
  by_cases heq : q = p
  · subst heq
    rw [history_note_self, hhistory]
    exact hself
  · rw [history_note_of_ne _ _ _ heq, hhistory, hothers q heq]
    exact h.lived q

theorem onConnect (h : s.Orderly listener) (hloop : s.closing = none) (hp : s.heap p = none)
    (hfd : s.fds fd = none) (hlistener : fd ≠ listener) :
    (s.onConnect p fd).Orderly listener where
  accounted := h.accounted.onConnect hloop hp hfd
  entry := by
    intro fd' q hq hclosing
    by_cases heq : fd' = fd
    · subst heq
      exact (addChannel_fds_self _ _ _ _).trans ((Function.update_self fd' _ _).symm.trans hq)
    · exact (addChannel_fds_of_ne heq).trans
        (h.entry fd' q ((Function.update_of_ne heq _ _).symm.trans hq) hclosing)
  apart := (addChannel_fds_of_ne hlistener.symm).trans h.apart
  current_polled := h.current_polled
  closing_none := h.closing_none
  lived := by
    have hfresh := h.lived p
    rw [phase_of_none hp] at hfresh
    refine h.lived_note { s with toTcpServer := s.toTcpServer.onConnect p fd } rfl
      (fun q hne => phase_addChannel_of_ne hfd hne) ?_
    exact (phase_addChannel_self EPOLLIN).symm ▸ hfresh.onConnect

/-- While the loop thread works on a channel, no `erase` is due. -/
theorem closing_of_current (h : s.Orderly listener) (hp : s.stage.current = some p) :
    s.closing = none := by
  apply h.closing_none
  intro hstage
  rw [hstage] at hp
  cases hp

/-- `pollEvent` does not take a connection for the listening socket. -/
theorem fd_ne_listener (h : s.Orderly listener) (hopen : s.Open p c) : c.fd ≠ listener := by
  rintro rfl
  cases h.apart.symm.trans hopen.2

/-- The endpoint may change as long as the owners of the descriptors and the phases stay. -/
theorem replace {e : Endpoint} (h : s.Orderly listener)
    (hacc : TcpServer.Accounted { s.toTcpServer with toEndpoint := e }) (hfds : e.fds = s.fds)
    (hphase : e.phase = s.phase) (hcur : ∀ q, stage.current = some q → q ∈ s.polled)
    (hclosing : stage ≠ .handling → s.closing = none) :
    Orderly listener { s with toEndpoint := e, stage := stage } where
  accounted := hacc
  entry fd q hq hne := (congrFun hfds fd).trans (h.entry fd q hq hne)
  apart := (congrFun hfds listener).trans h.apart
  current_polled := hcur
  closing_none := hclosing
  lived := hphase.symm ▸ h.lived

theorem store (h : s.Orderly listener) (stage : LoopStage) (hp : s.stage.current = some p)
    (hc : s.heap p = some c) (hlocal : ChannelCall.Local p (s.call c errno) io)
    (hcur : stage.current = some p) : (s.store p io stage).Orderly listener := by
  have hopen := h.accounted.open_polled (h.current_polled p hp) hc
  refine h.replace (h.accounted.store hc (.inl hopen.unshared) hlocal) rfl
    (phase_store hc hlocal.fd_eq) ?_ ?_
  · intro q hq
    obtain rfl : p = q := Option.some.inj (hcur.symm.trans hq)
    exact h.current_polled p hp
  · intro _
    exact h.closing_of_current hp

theorem note_data (h : s.Orderly listener) (hopen : s.Open p c) :
    (s.note p [.onData]).Orderly listener := by
  have htalk := h.lived p
  rw [hopen.phase] at htalk
  refine { h with lived := h.lived_note s rfl (fun q _ => rfl) ?_ }
  exact hopen.phase.symm ▸ htalk.onData

theorem onClose (h : s.Orderly listener) (hloop : s.closing = none) (hp : p ∈ s.polled)
    (hc : s.heap p = some c) : (s.onClose p c).Orderly listener := by
  have hopen := h.accounted.open_polled hp hc
  refine ⟨h.accounted.onClose hp hc, ?_, ?_, ?_, ?_, ?_⟩
  · -- the entry of the closed descriptor is the one whose `erase` is due
    intro fd q hq hclosing
    have hne : fd ≠ c.fd := fun heq => hclosing (congrArg some heq.symm)
    refine (onClose_fds_of_ne hne).trans (h.entry fd q hq ?_)
    rw [hloop]
    exact (Option.some_ne_none fd).symm
  · exact (onClose_fds_of_ne (h.fd_ne_listener hopen).symm).trans h.apart
  · intro q hq
    cases hq
  · intro hstage
    exact absurd rfl hstage
  · have htalk := h.lived p
    rw [hopen.phase] at htalk
    refine h.lived_note { s with toTcpServer := s.toTcpServer.onClose p c, stage := .handling } rfl
      (fun q hne => phase_onClose_of_ne hopen hne) ?_
    exact phase_onClose_self.symm ▸ htalk.onClose

theorem next (h : s.Orderly listener) : (s.next p).Orderly listener := by
  refine ⟨{ h.accounted with polled_open := ?_ }, h.entry, h.apart, ?_, ?_, h.lived⟩
  · intro q hq
    exact h.accounted.polled_open q (List.mem_filter.mp hq).1
  · intro q hq
    cases hq
  · intro hstage
    exact absurd rfl hstage

theorem erase (h : s.Orderly listener) (hloop : s.closing = some fd) :
    Orderly listener { s with toTcpServer := s.toTcpServer.erase fd } where
  accounted := h.accounted.erase hloop
  entry := by
    intro fd' q hq _
    by_cases heq : fd' = fd
    · subst heq
      cases (Function.update_self fd' _ _).symm.trans hq
    · refine h.entry fd' q ((Function.update_of_ne heq _ _).symm.trans hq) ?_
      rw [hloop]
      exact fun hfd => heq (Option.some.inj hfd).symm
  apart := h.apart
  current_polled := h.current_polled
  closing_none _ := rfl
  lived := h.lived

theorem send {msg : List UInt8} (h : s.Orderly listener) (hopen : s.Open p c) :
    Orderly listener { s with toEndpoint := s.toEndpoint.send p msg } := by
  have hsteal : ¬ s.Steals p msg := by
    rintro ⟨c', q, hc', hq, hne, -⟩
    exact hne (hopen.unshared c' q hc' hq)
  exact h.replace (h.accounted.send hsteal) (send_fds s.toEndpoint p msg) phase_send
    h.current_polled h.closing_none

theorem poll {events : EventMask} (h : s.Orderly listener) (hstage : s.stage = .polling)
    (hreg : s.Registered p) (hc : s.heap p = some c) :
    Orderly listener { s with toTcpServer := s.toTcpServer.poll p c events } where
  accounted := h.accounted.poll hreg hc
  entry := h.entry
  apart := h.apart
  current_polled := by
    intro q hq
    have hq : s.stage.current = some q := hq
    rw [hstage] at hq
    cases hq
  closing_none := h.closing_none
  lived := by
    have hphase : (s.toEndpoint.store p { s.call c 0 with channel := c.setEvent events }).phase =
        s.phase := phase_store hc rfl
    exact hphase.symm ▸ h.lived

/-- A turn of `onRead` that does not return goes on, and the others close the channel or leave it
    to the test for `EPOLLOUT`. -/
theorem onRead {left : ChannelBuffer} {res : ChannelCall × Option ReadExit}
    (h : s.Orderly listener) (hstage : s.stage = .reading p errno) (hc : s.heap p = some c)
    (hlocal : ChannelCall.Local p (s.call c errno) res.1) :
    (s.onRead p left res).Orderly listener := by
  obtain ⟨io, exit⟩ := res
  have hcur : s.stage.current = some p := by rw [hstage]; rfl
  have hp := h.current_polled p hcur
  have hopen := h.accounted.open_polled hp hc
  have hloop := h.closing_of_current hcur
  cases exit with
  | none => exact h.store _ hcur hc hlocal rfl
  | some exit =>
    cases exit with
    | closing =>
      have hstored := h.store (.closeTest p) hcur hc hlocal rfl
      exact hstored.onClose hloop hp (store_heap_self _ _ _)
    | delivering =>
      -- `onData_` leaves the descriptor and epoll alone
      have hleft : ChannelCall.Local p io
          { io with channel := { io.channel with readbuf := left } } := .of_epoll_eq rfl rfl
      have hstored := h.store (.writeTest p) hcur hc (hlocal.trans hleft) rfl
      refine hstored.note_data ⟨store_heap_self _ _ _, ?_⟩
      exact hlocal.fd_eq.symm ▸ hopen.2
    | waiting => exact h.store _ hcur hc hlocal rfl
    | failed => exact h.store _ hcur hc hlocal rfl

theorem onWrite {res : ChannelCall × Option Bool} (h : s.Orderly listener)
    (hstage : s.stage = .writing p errno) (hc : s.heap p = some c)
    (hlocal : ChannelCall.Local p (s.call c errno) res.1) :
    (s.onWrite p res).Orderly listener := by
  obtain ⟨io, ret⟩ := res
  have hcur : s.stage.current = some p := by rw [hstage]; rfl
  cases ret with
  | none => exact h.store _ hcur hc hlocal rfl
  | some ret =>
    cases ret with
    | false => exact h.store _ hcur hc hlocal rfl
    | true => exact (h.store (.closeTest p) hcur hc hlocal rfl).next

/-- The tests of `pollEvent` change nothing but where the loop thread is. -/
theorem goto (h : s.Orderly listener) (hcur : ∀ q, stage.current = some q → q ∈ s.polled)
    (hclosing : stage ≠ .handling → s.closing = none) :
    Orderly listener { s with stage := stage } :=
  { h with current_polled := hcur, closing_none := hclosing }

theorem step {hasOnData : Bool} {s' : ServerLoop} {l : ServerLoopStep} (h : s.Orderly listener)
    (hstep : Step listener hasOnData s l s') : s'.Orderly listener := by
  cases hstep with
  | poll hstage _ hreg hc => exact h.poll hstage hreg hc
  | handle hstage => exact h.goto (fun q hq => by cases hq) fun hne => absurd rfl hne
  | accept _ hloop hp hfd hlistener => exact h.onConnect hloop hp hfd hlistener
  | acceptFails => exact h
  | readTest _ hloop hp hc =>
    refine h.goto (fun q hq => ?_) fun _ => hloop
    split at hq <;> exact Option.some.inj hq ▸ hp
  | read hstage hc => exact h.onRead hstage hc (TcpEndpoint.onReadIter_local _ _ _ _).1
  | @writeTest p c errno hstage hc =>
    have hp : p ∈ s.polled := h.current_polled p (by rw [hstage]; rfl)
    refine h.goto (fun q hq => ?_) fun _ => h.closing_of_current (by rw [hstage]; rfl)
    split at hq <;> exact Option.some.inj hq ▸ hp
  | write hstage hc => exact h.onWrite hstage hc (TcpEndpoint.onWriteIter_local _ _ _)
  | closeTest hstage hc =>
    split
    · refine h.onClose (h.closing_of_current (by rw [hstage]; rfl)) ?_ hc
      exact h.current_polled _ (by rw [hstage]; rfl)
    · exact h.next
  | erase hloop => exact h.erase hloop
  | done _ hloop => exact h.goto (fun q hq => by cases hq) fun _ => hloop
  | send hopen => exact h.send hopen

theorem of_reachable {hasOnData : Bool} (h : (serverLoopRuns listener hasOnData).Reachable s) :
    s.Orderly listener := by
  refine h.invariant (I := fun s => s.Orderly listener) ?_ ?_
  · rintro s rfl
    exact empty
  · intro s l s' _ hs hstep
    exact hs.step hstep

theorem connected_iff (h : s.Orderly listener) (p : Ptr) : s.Connected p ↔ ∃ c, s.Open p c :=
  (h.lived p).connected_iff.symm.trans phase_connected

/-- When no `erase` is due, an entry of `channels_` is that of an open channel. -/
theorem open_of_entry (h : s.Orderly listener) (hloop : s.closing = none)
    (hentry : s.channels fd = some p) : ∃ c, c.fd = fd ∧ s.Open p c := by
  have hclosing : s.closing ≠ some fd := by
    rw [hloop]
    exact (Option.some_ne_none fd).symm
  have hfd := h.entry fd p hentry hclosing
  obtain ⟨c, hc, rfl⟩ := h.accounted.wired.owner fd p hfd
  exact ⟨c, rfl, hc, hfd⟩

/-- A free descriptor number has no entry then. -/
theorem channels_of_free (h : s.Orderly listener) (hloop : s.closing = none)
    (hfd : s.fds fd = none) : s.channels fd = none := by
  cases hentry : s.channels fd with
  | none => rfl
  | some q =>
    obtain ⟨c, rfl, hopen⟩ := h.open_of_entry hloop hentry
    cases hfd.symm.trans hopen.2

theorem history_of_fresh (h : s.Orderly listener) (hp : s.heap p = none) : s.history p = [] := by
  have hlived := h.lived p
  rw [phase_of_none hp] at hlived
  exact hlived.eq_nil

theorem protocol (h : s.Orderly listener) (hp : s.heap p ≠ none) : Protocol (s.history p) := by
  apply (h.lived p).protocol
  obtain ⟨c, hc⟩ := Option.ne_none_iff_exists'.mp hp
  rw [phase_of_some hc]
  split
  · exact Phase.noConfusion
  · exact Phase.noConfusion

end Orderly

/-- In every run of a server's loop, with sends on connections that are not closed. Between two
    events every accepted connection that is not closed has one entry in `channels_`, every entry
    is such a connection's, under its number, and epoll has its pointer. An `accept` finds no entry
    under the number it gets. What a connection sees follows the protocol. -/
theorem registry_and_protocol (listener : Fd) (hasOnData : Bool) (s : ServerLoop)
    (h : (serverLoopRuns listener hasOnData).Reachable s) :
    (s.BetweenEvents → (∀ p, s.Connected p → ∃! fd, s.channels fd = some p) ∧
      ∀ fd p, s.channels fd = some p → s.Connected p ∧
        ∃ c m, s.heap p = some c ∧ c.fd = fd ∧ s.epoll fd = some ⟨m, p⟩) ∧
    (∀ p fd s', Step listener hasOnData s (.accept p fd) s' → s.channels fd = none) ∧
    ∀ p, (s.heap p = none → s.history p = []) ∧ (s.heap p ≠ none → Protocol (s.history p)) := by
  have hord := Orderly.of_reachable h
  refine ⟨?_, ?_, fun p => ⟨hord.history_of_fresh, hord.protocol⟩⟩
  · rintro ⟨-, hloop⟩
    constructor
    · intro p hp
      obtain ⟨c, hopen⟩ := (hord.connected_iff p).mp hp
      refine ⟨c.fd, hord.accounted.stored c.fd p hopen.2, fun fd hentry => ?_⟩
      obtain ⟨c', rfl, hopen'⟩ := hord.open_of_entry hloop hentry
      exact congrArg _ (Option.some.inj (hopen'.1.symm.trans hopen.1))
    · intro fd p hentry
      obtain ⟨c, rfl, hopen⟩ := hord.open_of_entry hloop hentry
      obtain ⟨m, hm⟩ := hord.accounted.wired.epoll_of_open hopen
      exact ⟨(hord.connected_iff p).mpr ⟨c, hopen⟩, c, m, hopen.1, rfl, hm⟩
  · intro p fd s' hstep
    cases hstep with
    | accept _ hloop _ hfd => exact hord.channels_of_free hloop hfd

theorem reachable_step {listener : Fd} {hasOnData : Bool} {s s' : ServerLoop} {l : ServerLoopStep}
    (h : (serverLoopRuns listener hasOnData).Reachable s) (hstep : Step listener hasOnData s l s') :
    (serverLoopRuns listener hasOnData).Reachable s' := .next l h hstep

/-- A connection on descriptor 5 is accepted, hangs up and is closed by `onRead`, and the next one
    gets its number. -/
theorem reusedFd_reachable :
    ∃ s, (serverLoopRuns 3 true).Reachable s ∧ s.BetweenEvents ∧ s.Connected 1 ∧
      s.heap 0 ≠ none ∧ s.channels 5 = some 1 := by
  have hstart : (serverLoopRuns 3 true).Reachable empty := .start rfl
  have hhandle := reachable_step hstart (.handle rfl)
  have haccept := reachable_step (l := .accept 0 5) hhandle (.accept rfl rfl rfl rfl (by decide))
  have hdone := reachable_step haccept (.done rfl rfl rfl)
  have hpoll := reachable_step (l := .poll 0 EPOLLIN) hdone
    (.poll rfl (by decide) ⟨5, EPOLLIN, rfl⟩ rfl)
  have hread := reachable_step (l := .readTest 0 0) (reachable_step hpoll (.handle rfl))
    (.readTest rfl rfl (by decide) rfl (by decide))
  have hclose := reachable_step (l := .read (.data []) (.fresh _)) hread (.read (p := 0) rfl rfl)
  have herase := reachable_step hclose (.erase rfl)
  have hagain := reachable_step (l := .accept 1 5) herase (.accept rfl rfl rfl rfl (by decide))
  exact ⟨_, hagain, ⟨.inr rfl, rfl⟩, ⟨by decide, by decide⟩, Option.some_ne_none _, rfl⟩

theorem registry_reusedFd :
    ∃ s, (serverLoopRuns 3 true).Reachable s ∧ s.channels 5 = some 1 ∧
      (∃! fd, s.channels fd = some 1) ∧ Protocol (s.history 0) := by
  obtain ⟨s, hreach, hbetween, hconnected, hheap, hentry⟩ := reusedFd_reachable
  obtain ⟨hregistry, -, hprotocol⟩ := registry_and_protocol 3 true s hreach
  exact ⟨s, hreach, hentry, (hregistry hbetween).1 1 hconnected, (hprotocol 0).2 hheap⟩

end ServerLoop

end Codechiev
