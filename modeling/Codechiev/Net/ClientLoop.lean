import Codechiev.Net.PollEvent
import Codechiev.Net.ServerLoop

/-!
# The loop of `net::TcpClient`

The steps are those of the loop thread, as fine as for the server, the calls of `connect` and `send`
by any thread, and what becomes of a non-blocking `::connect`. The client takes the first
`EPOLLOUT` it sees on a channel for the end of the connect, and does not ask how it ended. So a
failed connect, which epoll reports as `EPOLLOUT` too, calls `onConnect_`; and once an early send
has set `EPOLLIN`, `onData_` may come first. Besides these, only a send to a closed channel whose
descriptor number another connection has breaks the order of the callbacks (`follows_of_careful`).
-/

namespace Codechiev

/-- What a channel of the client sees. -/
inductive ClientEvent where
  | onConnect
  | onData
  | close
  deriving DecidableEq

/-- What became of a `::connect`. -/
inductive Connecting where
  | pending
  | succeeded
  | failed
  deriving DecidableEq

/-- The histories that lead to a phase, with `connected_` on or off. -/
inductive ClientLived : Phase → Bool → List ClientEvent → Prop where
  | fresh : ClientLived .fresh false []
  | connect {h : List ClientEvent} : ClientLived .fresh false h → ClientLived .connected false h
  | onConnect {h : List ClientEvent} :
      ClientLived .connected false h → ClientLived .connected true (h ++ [.onConnect])
  | onData {h : List ClientEvent} :
      ClientLived .connected true h → ClientLived .connected true (h ++ [.onData])
  | close {b : Bool} {h : List ClientEvent} :
      ClientLived .connected b h → ClientLived .gone false (h ++ [.close])

namespace ClientLived

variable {ph : Phase} {b : Bool} {h : List ClientEvent}

/-- Before `onConnect_` a channel sees nothing. -/
theorem eq_nil (hl : ClientLived ph b h) (hb : b = false) (hph : ph ≠ .gone) : h = [] := by
  induction hl with
  | fresh => rfl
  | connect _ ih => exact ih rfl Phase.noConfusion
  | onConnect => cases hb
  | onData => cases hb
  | close => exact absurd rfl hph

/-- While `connected_` is on, the channel has seen `onConnect_` and then data. -/
theorem talking (hl : ClientLived ph b h) (hb : b = true) :
    ∃ n, h = .onConnect :: List.replicate n .onData := by
  induction hl with
  | fresh => cases hb
  | connect => cases hb
  | onConnect hwait =>
    refine ⟨0, ?_⟩
    rw [hwait.eq_nil rfl Phase.noConfusion]
    rfl
  | onData _ ih =>
    obtain ⟨n, rfl⟩ := ih rfl
    exact ⟨n + 1, by rw [List.replicate_succ', List.cons_append]⟩
  | close => cases hb

/-- In all, it sees nothing, or `onConnect_` and then data, and at the end the close. -/
theorem shape (hl : ClientLived ph b h) :
    (∃ tail, h = tail ∧ (tail = [] ∨ tail = [.close])) ∨
      ∃ n, ∃ tail, h = .onConnect :: List.replicate n .onData ++ tail ∧
        (tail = [] ∨ tail = [.close]) := by
  have hopen : ∀ {ph b h}, ClientLived ph b h → ph ≠ .gone →
      h = [] ∨ ∃ n, h = .onConnect :: List.replicate n .onData := by
    intro ph b h hl hph
    cases b with
    | false => exact .inl (hl.eq_nil rfl hph)
    | true => exact .inr (hl.talking rfl)
  cases hl with
  | close hbefore =>
    rcases hopen hbefore Phase.noConfusion with rfl | ⟨n, rfl⟩
    · exact .inl ⟨_, rfl, .inr rfl⟩
    · exact .inr ⟨n, _, rfl, .inr rfl⟩
  | fresh => exact .inl ⟨_, rfl, .inl rfl⟩
  | connect hl =>
    rw [hl.eq_nil rfl Phase.noConfusion]
    exact .inl ⟨_, rfl, .inl rfl⟩
  | onConnect hl =>
    obtain ⟨n, hn⟩ := hl.onConnect.talking rfl
    exact .inr ⟨n, [], by rw [hn, List.append_nil], .inl rfl⟩
  | onData hl =>
    obtain ⟨n, hn⟩ := hl.onData.talking rfl
    exact .inr ⟨n, [], by rw [hn, List.append_nil], .inl rfl⟩

/-- `onConnect_` is called at most once. -/
theorem count_onConnect (hl : ClientLived ph b h) : h.count .onConnect ≤ 1 := by
  rcases hl.shape with ⟨tail, rfl, rfl | rfl⟩ | ⟨n, tail, rfl, rfl | rfl⟩ <;>
    simp [List.count_replicate]

/-- `onData_` is called after it only. -/
theorem onConnect_first (hl : ClientLived ph b h) {h₁ h₂ : List ClientEvent}
    (hsplit : h = h₁ ++ .onData :: h₂) : .onConnect ∈ h₁ := by
  have hdata : ClientEvent.onData ∈ h := by
    rw [hsplit]
    exact List.mem_append_right _ List.mem_cons_self
  rcases hl.shape with ⟨tail, rfl, rfl | rfl⟩ | ⟨n, tail, heq, -⟩
  · cases hdata
  · simp at hdata
  · cases h₁ with
    | nil =>
      rw [hsplit] at heq
      cases heq
    | cons x rest =>
      rw [hsplit] at heq
      injection heq with hx
      rw [hx]
      exact List.mem_cons_self

end ClientLived

namespace Endpoint

variable {e : Endpoint} {p q : Ptr} {c : Channel} {fd : Fd} {io : ChannelCall}

/-- Whether the channel at `p` exists and has its descriptor, and its `connected_`. -/
def status (e : Endpoint) (p : Ptr) : Phase × Bool :=
  (e.phase p, match e.heap p with | none => false | some c => c.connected)

theorem status_of_some (h : e.heap p = some c) : e.status p = (e.phase p, c.connected) := by
  rw [status, h]

theorem status_of_none (h : e.heap p = none) : e.status p = (.fresh, false) := by
  rw [status, h, phase_of_none h]

/-- A call that keeps the descriptor and `connected_` keeps every status. -/
theorem status_store (hc : e.heap p = some c) (hfd : io.channel.fd = c.fd)
    (hconn : io.channel.connected = c.connected) : (e.store p io).status = e.status := by
  funext q
  have hphase : (e.store p io).phase = e.phase := phase_store hc hfd
  by_cases heq : q = p
  · subst heq
    rw [status_of_some (store_heap_self e q io), status_of_some hc, hphase, hconn]
  · simp only [status, hphase, store_heap_of_ne heq]

theorem status_send (e : Endpoint) (p : Ptr) (msg : List UInt8) :
    (e.send p msg).status = e.status := by
  funext q
  have hphase : (e.send p msg).phase = e.phase := phase_send
  by_cases heq : q = p
  · subst heq
    cases hc : e.heap q with
    | none => rw [send, hc]
    | some c =>
      have hsent : (e.send q msg).heap q = some (c.afterSend msg) := by
        rw [send_heap_self, hc]
        rfl
      rw [status_of_some hsent, status_of_some hc, hphase]
      rfl
  · simp only [status, hphase, send_heap_of_ne heq]

theorem status_addChannel_self (e : Endpoint) (p : Ptr) (fd : Fd) (events : EventMask) :
    (e.addChannel p fd events).status p = (.connected, false) := by
  rw [status_of_some (addChannel_heap_self e p fd events), phase_addChannel_self]
  rfl

theorem status_addChannel_of_ne {events : EventMask} (hfd : e.fds fd = none) (hne : q ≠ p) :
    (e.addChannel p fd events).status q = e.status q := by
  simp only [status, phase_addChannel_of_ne hfd hne, addChannel_heap_of_ne hne]

theorem status_onClose_self (e : Endpoint) (p : Ptr) (c : Channel) :
    (e.onClose p c).status p = (.gone, false) := by
  rw [status_of_some (onClose_heap_self e p c), phase_onClose_self]
  rfl

theorem status_onClose_of_ne (hopen : e.Open p c) (hne : q ≠ p) :
    (e.onClose p c).status q = e.status q := by
  simp only [status, phase_onClose_of_ne hopen hne, onClose_heap_of_ne hne]

theorem Open.status (h : e.Open p c) : e.status p = (.connected, c.connected) := by
  rw [status_of_some h.1, h.phase]

/-- What `TcpClient::onConnect` does to the channel turns `connected_` on, and nothing else. -/
theorem status_setConnected (hopen : e.Open p c) (q : Ptr) :
    (e.store p (TcpEndpoint.updateChannel p (e.call (c.setConnected true) 0) EPOLLIN)).status q =
      if q = p then (.connected, true) else e.status q := by
  have hphase : (e.store p
      (TcpEndpoint.updateChannel p (e.call (c.setConnected true) 0) EPOLLIN)).phase = e.phase :=
    phase_store hopen.1 rfl
  split
  · rename_i heq
    subst heq
    rw [status_of_some (store_heap_self _ _ _), hphase, hopen.phase]
    rfl
  · rename_i hne
    simp only [status, hphase, store_heap_of_ne hne]

end Endpoint

theorem TcpEndpoint.onWriteIter_connected (p : Ptr) (io : ChannelCall) (r : WriteResult) :
    (onWriteIter p io r).1.channel.connected = io.channel.connected := by
  simp only [onWriteIter]
  split
  · split
    · split <;> rfl
    · rfl
  · split <;> rfl

theorem TcpEndpoint.onReadIter_connected (p : Ptr) (hasOnData : Bool) (io : ChannelCall)
    (r : ReadResult) :
    (onReadIter p hasOnData io r).1.channel.connected = io.channel.connected := by
  rw [onReadIter_channel]

/-! ## The steps -/

/-- The channels of the client, the vector that `poll` filled, where the loop thread is, what
    became of each `::connect`, and what each channel has seen. -/
structure ClientLoop extends Endpoint where
  polled : List Ptr
  stage : LoopStage
  conn : Ptr → Connecting
  log : List (Ptr × ClientEvent)

/-- One step. `atOnce` says that `::connect` returned 0 rather than -1 with `EINPROGRESS`. `left`
    is what `onData_` leaves of the read buffer, if it is called. -/
inductive ClientLoopStep where
  | connect (p : Ptr) (fd : Fd) (atOnce : Bool)
  | settle (p : Ptr) (ok : Bool)
  | send (p : Ptr) (msg : List UInt8)
  | poll (p : Ptr) (events : EventMask)
  | handle
  | readTest (p : Ptr) (errno : Errno)
  | read (r : ReadResult) (left : ChannelBuffer)
  | writeTest (errno : Errno)
  | write (r : WriteResult)
  | closeTest
  | done

namespace ClientLoop

def empty : ClientLoop :=
  { toEndpoint := .empty, polled := [], stage := .polling, conn := fun _ => .pending, log := [] }

/-- What the channel at `p` has seen. -/
def history (s : ClientLoop) (p : Ptr) : List ClientEvent :=
  (s.log.filter fun x => x.1 = p).map Prod.snd

/-- The channel at `p` sees an event. -/
def note (s : ClientLoop) (p : Ptr) (event : ClientEvent) : ClientLoop :=
  { s with log := s.log ++ [(p, event)] }

/-- A call on the channel at `p` returned. -/
def store (s : ClientLoop) (p : Ptr) (io : ChannelCall) (stage : LoopStage) : ClientLoop :=
  { s with toEndpoint := s.toEndpoint.store p io, stage := stage }

/-- `TcpClient::connect`. -/
def connect (s : ClientLoop) (p : Ptr) (fd : Fd) (atOnce : Bool) : ClientLoop :=
  { s with
    toEndpoint := s.addChannel p fd EPOLLOUT
    conn := Function.update s.conn p (if atOnce then .succeeded else .pending) }

/-- The kernel comes to an end with a pending `::connect`. -/
def settle (s : ClientLoop) (p : Ptr) (ok : Bool) : ClientLoop :=
  { s with conn := Function.update s.conn p (if ok then .succeeded else .failed) }

/-- `TcpClient::onConnect`. -/
def onConnect (s : ClientLoop) (p : Ptr) (c : Channel) : ClientLoop :=
  (s.store p (TcpEndpoint.updateChannel p (s.call (c.setConnected true) 0) EPOLLIN)
    (.closeTest p)).note p .onConnect

/-- `onClose`, after which either caller goes on with the next element. -/
def onClose (s : ClientLoop) (p : Ptr) (c : Channel) : ClientLoop :=
  { s with
    toEndpoint := s.toEndpoint.onClose p c
    polled := s.polled.filter (· ≠ p)
    stage := .handling }.note p .close

/-- The body of the loop in `pollEvent` is done with the channel at `p`. -/
def next (s : ClientLoop) (p : Ptr) : ClientLoop :=
  { s with polled := s.polled.filter (· ≠ p), stage := .handling }

/-- One turn of the loop in `onRead`, which goes on or returns. -/
def onRead (s : ClientLoop) (p : Ptr) (left : ChannelBuffer) :
    ChannelCall × Option ReadExit → ClientLoop
  | (io, none) => s.store p io (.reading p io.errno)
  | (io, some .closing) => (s.store p io .handling).onClose p io.channel
  | (io, some .delivering) =>
    let io := { io with channel := { io.channel with readbuf := left } }
    (s.store p io (.writeTest p)).note p .onData
  | (io, some .waiting) | (io, some .failed) => s.store p io (.writeTest p)

/-- One turn of the loop in `onWrite`. -/
def onWrite (s : ClientLoop) (p : Ptr) : ChannelCall × Option Bool → ClientLoop
  | (io, none) => s.store p io (.writing p io.errno)
  | (io, some true) => (s.store p io .handling).next p
  | (io, some false) => s.store p io (.closeTest p)

/-- The test for `EPOLLOUT`, which takes a channel that is not connected to `onConnect`. -/
def testOut (s : ClientLoop) (p : Ptr) (c : Channel) (errno : Errno) : ClientLoop :=
  if c.event &&& EPOLLOUT ≠ 0 then
    if c.connected = true then { s with stage := .writing p errno } else s.onConnect p c
  else { s with stage := .closeTest p }

/-- The steps. `connect` and `send` are called by any thread at any time, `send` on any channel
    there is. Epoll reports any mask, for what is registered, once in a batch. -/
inductive Step (hasOnData : Bool) : ClientLoop → ClientLoopStep → ClientLoop → Prop where
  | connect {s : ClientLoop} {p : Ptr} {fd : Fd} {atOnce : Bool} (hp : s.heap p = none)
      (hfd : s.fds fd = none) : Step hasOnData s (.connect p fd atOnce) (s.connect p fd atOnce)
  | settle {s : ClientLoop} {p : Ptr} {ok : Bool} (hp : s.heap p ≠ none)
      (hpending : s.conn p = .pending) : Step hasOnData s (.settle p ok) (s.settle p ok)
  | send {s : ClientLoop} {p : Ptr} {msg : List UInt8} :
      Step hasOnData s (.send p msg) { s with toEndpoint := s.toEndpoint.send p msg }
  | poll {s : ClientLoop} {p : Ptr} {c : Channel} {events : EventMask} (hstage : s.stage = .polling)
      (honce : p ∉ s.polled) (hreg : s.Registered p) (hc : s.heap p = some c) :
      Step hasOnData s (.poll p events)
        { s with
          toEndpoint := s.toEndpoint.store p { s.call c 0 with channel := c.setEvent events }
          polled := p :: s.polled }
  | handle {s : ClientLoop} (hstage : s.stage = .polling) :
      Step hasOnData s .handle { s with stage := .handling }
  | readTest {s : ClientLoop} {p : Ptr} {c : Channel} {errno : Errno} (hstage : s.stage = .handling)
      (hp : p ∈ s.polled) (hc : s.heap p = some c) :
      Step hasOnData s (.readTest p errno)
        { s with stage := if c.event &&& EPOLLIN ≠ 0 then .reading p errno else .writeTest p }
  | read {s : ClientLoop} {p : Ptr} {c : Channel} {errno : Errno} {r : ReadResult}
      {left : ChannelBuffer} (hstage : s.stage = .reading p errno) (hc : s.heap p = some c) :
      Step hasOnData s (.read r left)
        (s.onRead p left (TcpEndpoint.onReadIter p hasOnData (s.call c errno) r))
  | writeTest {s : ClientLoop} {p : Ptr} {c : Channel} {errno : Errno}
      (hstage : s.stage = .writeTest p) (hc : s.heap p = some c) :
      Step hasOnData s (.writeTest errno) (s.testOut p c errno)
  | write {s : ClientLoop} {p : Ptr} {c : Channel} {errno : Errno} {r : WriteResult}
      (hstage : s.stage = .writing p errno) (hc : s.heap p = some c) :
      Step hasOnData s (.write r) (s.onWrite p (TcpEndpoint.onWriteIter p (s.call c errno) r))
  | closeTest {s : ClientLoop} {p : Ptr} {c : Channel} (hstage : s.stage = .closeTest p)
      (hc : s.heap p = some c) :
      Step hasOnData s .closeTest
        (if c.event &&& (EPOLLHUP ||| EPOLLRDHUP) ≠ 0 then s.onClose p c else s.next p)
  | done {s : ClientLoop} (hstage : s.stage = .handling) (hp : s.polled = []) :
      Step hasOnData s .done { s with stage := .polling }

/-- The runs of a client that starts without channels. -/
def clientLoopRuns (hasOnData : Bool) : LabelledSystem ClientLoop ClientLoopStep where
  init s := s = .empty
  step := Step hasOnData

/-- What the channel at `p` sees is in order: `onConnect_` is called at most once, only if the
    connect succeeded, and before any `onData_`; and `isConnected()` is true only from the end of
    the connect to the close. -/
structure Follows (s : ClientLoop) (p : Ptr) : Prop where
  once : (s.history p).count .onConnect ≤ 1
  succeeded : .onConnect ∈ s.history p → s.conn p = .succeeded
  first : ∀ h₁ h₂, s.history p = h₁ ++ .onData :: h₂ → .onConnect ∈ h₁
  isConnected : ∀ c, s.heap p = some c → c.connected = true →
    s.conn p = .succeeded ∧ .close ∉ s.history p

/-- The answer ends `onRead` with a call of `onData_`. -/
def Delivers (hasOnData : Bool) (c : Channel) (errno : Errno) (r : ReadResult) : Prop :=
  r.len ≠ 0 ∧ r.errno errno = EAGAIN ∧ hasOnData = true ∧
    (c.readbuf.append r.bytes r.len).1.readable ≠ 0

/-- The test for `EPOLLOUT` finds no channel whose connect is pending or failed, `onRead` delivers
    no data on a channel that is not connected, and no send goes to a closed channel whose
    descriptor number another one has. -/
def Careful (hasOnData : Bool) (s : ClientLoop) : ClientLoopStep → Prop
  | .send p _ => s.Unshared p
  | .read r _ => ∀ p errno c, s.stage = .reading p errno → s.heap p = some c →
      c.connected = false → ¬ Delivers hasOnData c errno r
  | .writeTest _ => ∀ p c, s.stage = .writeTest p → s.heap p = some c → c.connected = false →
      c.event &&& EPOLLOUT ≠ 0 → s.conn p = .succeeded
  | _ => True

/-! ## The invariant -/

variable {hasOnData : Bool} {s s' : ClientLoop} {p q : Ptr} {c : Channel} {fd : Fd} {errno : Errno}
  {io : ChannelCall} {l : ClientLoopStep}

theorem testOut_onConnect (s : ClientLoop) (hconn : c.connected = false)
    (hout : c.event &&& EPOLLOUT ≠ 0) : s.testOut p c errno = s.onConnect p c := by
  rw [testOut, if_pos hout, if_neg (by rw [hconn]; exact Bool.false_ne_true)]

theorem history_note_self (s : ClientLoop) (p : Ptr) (event : ClientEvent) :
    (s.note p event).history p = s.history p ++ [event] := by
  simp [history, note]

theorem history_note_of_ne (event : ClientEvent) (hne : q ≠ p) :
    (s.note p event).history q = s.history q := by
  simp [history, note, Ne.symm hne]

/-- The endpoint is wired, the loop thread works on a channel of the batch, which holds open
    channels only, and every channel has seen what its status says, `onConnect_` only once its
    connect has succeeded. -/
structure Orderly (s : ClientLoop) : Prop where
  wired : s.toEndpoint.Wired
  polled_open : ∀ p ∈ s.polled, ∃ fd, s.fds fd = some p
  current_polled : ∀ p, s.stage.current = some p → p ∈ s.polled
  lived : ∀ p, ClientLived (s.status p).1 (s.status p).2 (s.history p)
  succeeded : ∀ p, .onConnect ∈ s.history p → s.conn p = .succeeded

namespace Orderly

open Endpoint

theorem empty : Orderly .empty where
  wired := wired_empty
  polled_open _ h := by cases h
  current_polled _ h := by cases h
  lived _ := ClientLived.fresh
  succeeded _ h := by cases h

theorem follows (h : s.Orderly) (p : Ptr) : s.Follows p where
  once := (h.lived p).count_onConnect
  succeeded := h.succeeded p
  first _ _ hsplit := (h.lived p).onConnect_first hsplit
  isConnected := by
    intro c hc hconn
    have hlived := h.lived p
    rw [status_of_some hc] at hlived
    obtain ⟨n, hn⟩ := hlived.talking hconn
    refine ⟨h.succeeded p ?_, ?_⟩
    · rw [hn]
      exact List.mem_cons_self
    · simp [hn]

theorem open_polled (h : s.Orderly) (hp : p ∈ s.polled) (hc : s.heap p = some c) : s.Open p c := by
  obtain ⟨fd, hfd⟩ := h.polled_open p hp
  obtain ⟨c', hc', rfl⟩ := h.wired.owner fd p hfd
  obtain rfl : c' = c := Option.some.inj (hc'.symm.trans hc)
  exact ⟨hc, hfd⟩

/-- The channel that the loop thread works on is open. -/
theorem open_current (h : s.Orderly) (hp : s.stage.current = some p) (hc : s.heap p = some c) :
    s.Open p c := h.open_polled (h.current_polled p hp) hc

/-- The endpoint may change as long as descriptors and statuses stay. -/
theorem replace {e : Endpoint} {stage : LoopStage} (h : s.Orderly) (hwired : e.Wired)
    (hfds : e.fds = s.fds) (hstatus : e.status = s.status)
    (hcur : ∀ q, stage.current = some q → q ∈ s.polled) :
    Orderly { s with toEndpoint := e, stage := stage } where
  wired := hwired
  polled_open := hfds.symm ▸ h.polled_open
  current_polled := hcur
  lived := hstatus.symm ▸ h.lived
  succeeded := h.succeeded

theorem store (h : s.Orderly) (stage : LoopStage) (hp : s.stage.current = some p)
    (hc : s.heap p = some c) (hlocal : ChannelCall.Local p (s.call c errno) io)
    (hconn : io.channel.connected = c.connected)
    (hcur : stage.current = some p ∨ stage.current = none) : (s.store p io stage).Orderly := by
  have hopen := h.open_current hp hc
  refine h.replace (h.wired.store hc (.inl hopen.unshared) hlocal) rfl
    (status_store hc hlocal.fd_eq hconn) ?_
  intro q hq
  rcases hcur with hsame | hnone
  · exact h.current_polled q (hp.trans (hsame.symm.trans hq))
  · cases hnone.symm.trans hq

/-- The tests of `pollEvent` change nothing but where the loop thread is. -/
theorem goto {stage : LoopStage} (h : s.Orderly)
    (hcur : ∀ q, stage.current = some q → q ∈ s.polled) : Orderly { s with stage := stage } :=
  { h with current_polled := hcur }

theorem next (h : s.Orderly) : (s.next p).Orderly := by
  refine { h with polled_open := ?_, current_polled := ?_ }
  · intro q hq
    exact h.polled_open q (List.mem_filter.mp hq).1
  · intro q hq
    cases hq

/-- When the status of one channel changes with what it sees, the others stay as they were. -/
theorem lived_note {event : ClientEvent} {t : ClientLoop} (h : s.Orderly) (hlog : t.log = s.log)
    (hothers : ∀ q, q ≠ p → t.status q = s.status q)
    (hself : ClientLived (t.status p).1 (t.status p).2 (s.history p ++ [event])) :
    ∀ q, ClientLived (t.status q).1 (t.status q).2 ((t.note p event).history q) := by
  have hhistory : t.history = s.history := by
    funext q
    rw [history, hlog]
    rfl
  intro q
  by_cases heq : q = p
  · subst heq
    rw [history_note_self, hhistory]
    exact hself
  · rw [history_note_of_ne event heq, hhistory, hothers q heq]
    exact h.lived q

theorem note_data (h : s.Orderly) (hopen : s.Open p c) (hconn : c.connected = true) :
    (s.note p .onData).Orderly := by
  have htalk := h.lived p
  rw [hopen.status, hconn] at htalk
  refine { h with lived := h.lived_note rfl (fun q _ => rfl) ?_, succeeded := ?_ }
  · rw [hopen.status, hconn]
    exact htalk.onData
  · intro q hq
    by_cases heq : q = p
    · subst heq
      rw [history_note_self] at hq
      exact h.succeeded q (by simpa using hq)
    · rw [history_note_of_ne _ heq] at hq
      exact h.succeeded q hq

theorem onConnect (h : s.Orderly) (hstage : s.stage = .writeTest p) (hc : s.heap p = some c)
    (hconn : c.connected = false) (hok : s.conn p = .succeeded) : (s.onConnect p c).Orderly := by
  have hcur : s.stage.current = some p := by rw [hstage]; rfl
  have hopen := h.open_current hcur hc
  have hlocal : ChannelCall.Local p (s.call c 0)
      (TcpEndpoint.updateChannel p (s.call (c.setConnected true) 0) EPOLLIN) :=
    .from_start (TcpEndpoint.updateChannel_local _ _ _) rfl rfl
  have hwait := h.lived p
  rw [hopen.status, hconn] at hwait
  refine ⟨h.wired.store hc (.inl hopen.unshared) hlocal, h.polled_open, ?_, ?_, ?_⟩
  · intro q hq
    obtain rfl : p = q := Option.some.inj hq
    exact h.current_polled p hcur
  · refine h.lived_note (t := s.store p (TcpEndpoint.updateChannel p
      (s.call (c.setConnected true) 0) EPOLLIN) (.closeTest p)) rfl ?_ ?_
    · intro q hne
      exact (status_setConnected hopen q).trans (if_neg hne)
    · have hself := (status_setConnected hopen p).trans (if_pos rfl)
      exact hself.symm ▸ hwait.onConnect
  · intro q hq
    by_cases heq : q = p
    · subst heq
      exact hok
    · exact h.succeeded q ((history_note_of_ne (s := s.store p (TcpEndpoint.updateChannel p
        (s.call (c.setConnected true) 0) EPOLLIN) (.closeTest p)) .onConnect heq) ▸ hq)

theorem onClose (h : s.Orderly) (hp : p ∈ s.polled) (hc : s.heap p = some c) :
    (s.onClose p c).Orderly := by
  have hopen := h.open_polled hp hc
  have hbefore := h.lived p
  rw [hopen.status] at hbefore
  refine ⟨h.wired.onClose hopen, ?_, ?_, ?_, ?_⟩
  · intro q hq
    obtain ⟨hmem, hne⟩ := List.mem_filter.mp hq
    obtain ⟨fd, hfd⟩ := h.polled_open q hmem
    refine ⟨fd, (onClose_fds_of_ne ?_).trans hfd⟩
    rintro rfl
    exact absurd (Option.some.inj (hopen.2.symm.trans hfd)).symm (by simpa using hne)
  · intro q hq
    cases hq
  · refine h.lived_note (t := { s with
        toEndpoint := s.toEndpoint.onClose p c
        polled := s.polled.filter (· ≠ p)
        stage := .handling }) rfl (fun q hne => status_onClose_of_ne hopen hne) ?_
    have hself := status_onClose_self s.toEndpoint p c
    exact hself.symm ▸ hbefore.close
  · intro q hq
    apply h.succeeded q
    have hlog : (s.onClose p c).history q = (s.note p .close).history q := rfl
    rw [hlog] at hq
    by_cases heq : q = p
    · subst heq
      rw [history_note_self] at hq
      simpa using hq
    · rwa [history_note_of_ne _ heq] at hq

theorem connect {atOnce : Bool} (h : s.Orderly) (hp : s.heap p = none) (hfd : s.fds fd = none) :
    (s.connect p fd atOnce).Orderly := by
  have hfresh := h.lived p
  rw [status_of_none hp] at hfresh
  have hnothing := hfresh.eq_nil rfl Phase.noConfusion
  refine ⟨h.wired.addChannel hp hfd, ?_, h.current_polled, ?_, ?_⟩
  · intro q hq
    obtain ⟨fd', hfd'⟩ := h.polled_open q hq
    refine ⟨fd', (addChannel_fds_of_ne ?_).trans hfd'⟩
    rintro rfl
    cases hfd.symm.trans hfd'
  · intro q
    show ClientLived ((s.addChannel p fd EPOLLOUT).status q).1
      ((s.addChannel p fd EPOLLOUT).status q).2 (s.history q)
    by_cases heq : q = p
    · subst heq
      rw [status_addChannel_self]
      exact hfresh.connect
    · rw [status_addChannel_of_ne hfd heq]
      exact h.lived q
  · intro q hq
    have hmem : .onConnect ∈ s.history q := hq
    by_cases heq : q = p
    · subst heq
      rw [hnothing] at hmem
      cases hmem
    · exact (Function.update_of_ne heq _ _).trans (h.succeeded q hmem)

theorem settle {ok : Bool} (h : s.Orderly) (hpending : s.conn p = .pending) :
    (s.settle p ok).Orderly := by
  refine { h with succeeded := ?_ }
  intro q hq
  have hok := h.succeeded q hq
  have hne : q ≠ p := by
    rintro rfl
    cases hpending.symm.trans hok
  exact (Function.update_of_ne hne _ _).trans hok

/-- A turn of `onRead` that does not return goes on, and the others close the channel, or leave it
    to the test for `EPOLLOUT`. -/
theorem onRead {left : ChannelBuffer} {res : ChannelCall × Option ReadExit} (h : s.Orderly)
    (hstage : s.stage = .reading p errno) (hc : s.heap p = some c)
    (hlocal : ChannelCall.Local p (s.call c errno) res.1)
    (hconn : res.1.channel.connected = c.connected)
    (hdata : res.2 = some .delivering → c.connected = true) : (s.onRead p left res).Orderly := by
  obtain ⟨io, exit⟩ := res
  have hcur : s.stage.current = some p := by rw [hstage]; rfl
  have hp := h.current_polled p hcur
  have hopen := h.open_current hcur hc
  cases exit with
  | none => exact h.store _ hcur hc hlocal hconn (.inl rfl)
  | some exit =>
    cases exit with
    | closing =>
      exact (h.store .handling hcur hc hlocal hconn (.inr rfl)).onClose hp (store_heap_self _ _ _)
    | delivering =>
      -- `onData_` leaves the descriptor and epoll alone
      have hleft : ChannelCall.Local p io
          { io with channel := { io.channel with readbuf := left } } := .of_epoll_eq rfl rfl
      have hstored := h.store (.writeTest p) hcur hc (hlocal.trans hleft) hconn (.inl rfl)
      refine hstored.note_data ⟨store_heap_self _ _ _, ?_⟩ (hconn.trans (hdata rfl))
      exact hlocal.fd_eq.symm ▸ hopen.2
    | waiting => exact h.store _ hcur hc hlocal hconn (.inl rfl)
    | failed => exact h.store _ hcur hc hlocal hconn (.inl rfl)

theorem onWrite {res : ChannelCall × Option Bool} (h : s.Orderly)
    (hstage : s.stage = .writing p errno) (hc : s.heap p = some c)
    (hlocal : ChannelCall.Local p (s.call c errno) res.1)
    (hconn : res.1.channel.connected = c.connected) : (s.onWrite p res).Orderly := by
  obtain ⟨io, ret⟩ := res
  have hcur : s.stage.current = some p := by rw [hstage]; rfl
  cases ret with
  | none => exact h.store _ hcur hc hlocal hconn (.inl rfl)
  | some ret =>
    cases ret with
    | false => exact h.store _ hcur hc hlocal hconn (.inl rfl)
    | true => exact (h.store .handling hcur hc hlocal hconn (.inr rfl)).next

theorem testOut (h : s.Orderly) (hstage : s.stage = .writeTest p) (hc : s.heap p = some c)
    (hok : c.connected = false → c.event &&& EPOLLOUT ≠ 0 → s.conn p = .succeeded) :
    (s.testOut p c errno).Orderly := by
  have hcur : s.stage.current = some p := by rw [hstage]; rfl
  have hgoto : ∀ stage : LoopStage, stage.current = some p →
      Orderly { s with stage := stage } := by
    intro stage hsame
    exact h.goto fun q hq => h.current_polled q (hcur.trans (hsame.symm.trans hq))
  rw [ClientLoop.testOut]
  split
  · rename_i hout
    split
    · exact hgoto _ rfl
    · rename_i hconn
      have hconn := Bool.eq_false_of_not_eq_true hconn
      exact h.onConnect hstage hc hconn (hok hconn hout)
  · exact hgoto _ rfl

/-- When a turn of `onRead` calls `onData_`. -/
theorem delivering_iff {r : ReadResult} :
    (TcpEndpoint.onReadIter p hasOnData (s.call c errno) r).2 = some .delivering ↔
      Delivers hasOnData c errno r := by
  rw [TcpEndpoint.onReadIter_return]
  show (if r.Ends errno then some (TcpEndpoint.exitOn hasOnData
    (c.readbuf.append r.bytes r.len).1 r) else none) = some .delivering ↔ _
  by_cases hzero : r.len = 0
  · rw [if_pos (.inl hzero), TcpEndpoint.exitOn, if_pos hzero]
    constructor
    · intro h
      cases h
    · intro h
      exact absurd hzero h.1
  · rw [TcpEndpoint.exitOn, if_neg hzero]
    by_cases he : r.errno errno = EAGAIN
    · rw [if_pos (.inr he)]
      split
      · rename_i hdata
        exact ⟨fun _ => ⟨hzero, he, hdata⟩, fun _ => rfl⟩
      · rename_i hnone
        constructor
        · intro h
          cases h
        · intro h
          exact absurd h.2.2 hnone
    · rw [if_neg (by rintro (h | h); exacts [hzero h, he h])]
      constructor
      · intro h
        cases h
      · intro h
        exact absurd h.2.1 he

/-- One careful step. -/
theorem step (h : s.Orderly) (hl : s.Careful hasOnData l) (hstep : Step hasOnData s l s') :
    s'.Orderly := by
  cases hstep with
  | connect hp hfd => exact h.connect hp hfd
  | settle _ hpending => exact h.settle hpending
  | send =>
    exact h.replace (h.wired.send hl) (send_fds _ _ _) (status_send _ _ _) h.current_polled
  | @poll p c events hstage honce hreg hc =>
    obtain ⟨c', hopen⟩ := h.wired.open_of_registered hreg
    obtain rfl : c' = c := Option.some.inj (hopen.1.symm.trans hc)
    have hlocal : ChannelCall.Local p (s.call c' 0)
        { s.call c' 0 with channel := c'.setEvent events } := .of_epoll_eq rfl rfl
    have hstatus : (s.toEndpoint.store p
        { s.call c' 0 with channel := c'.setEvent events }).status = s.status :=
      status_store hc rfl rfl
    refine ⟨h.wired.store hc (.inl hopen.unshared) hlocal, ?_, ?_, ?_, h.succeeded⟩
    · exact List.forall_mem_cons.mpr ⟨⟨c'.fd, hopen.2⟩, h.polled_open⟩
    · intro q hq
      exact List.mem_cons_of_mem _ (h.current_polled q hq)
    · exact hstatus.symm ▸ h.lived
  | handle => exact h.goto fun q hq => by cases hq
  | readTest _ hp hc =>
    refine h.goto fun q hq => ?_
    split at hq <;> exact Option.some.inj hq ▸ hp
  | @read p c errno r left hstage hc =>
    refine h.onRead hstage hc (TcpEndpoint.onReadIter_local _ _ _ _).1
      (TcpEndpoint.onReadIter_connected _ _ _ _) fun hdata => ?_
    rw [delivering_iff] at hdata
    by_contra hconn
    exact hl p errno c hstage hc (Bool.eq_false_of_not_eq_true hconn) hdata
  | writeTest hstage hc => exact h.testOut hstage hc (hl _ _ hstage hc)
  | write hstage hc =>
    exact h.onWrite hstage hc (TcpEndpoint.onWriteIter_local _ _ _)
      (TcpEndpoint.onWriteIter_connected _ _ _)
  | closeTest hstage hc =>
    split
    · exact h.onClose (h.current_polled _ (by rw [hstage]; rfl)) hc
    · exact h.next
  | done => exact h.goto fun q hq => by cases hq

theorem of_reachable (h : ((clientLoopRuns hasOnData).under (Careful hasOnData)).Reachable s) :
    s.Orderly := by
  refine h.invariant (I := Orderly) ?_ ?_
  · rintro s rfl
    exact empty
  · rintro s l s' - hs ⟨hl, hstep⟩
    exact hs.step hl hstep

/-! ## The steps that are not careful -/

theorem history_of_open (h : s.Orderly) (hopen : s.Open p c) (hconn : c.connected = false) :
    s.history p = [] := by
  have hwait := h.lived p
  rw [hopen.status, hconn] at hwait
  exact hwait.eq_nil rfl Phase.noConfusion

/-- Data that is delivered before the channel is connected comes before `onConnect_`. -/
theorem not_follows_read {r : ReadResult} {left : ChannelBuffer} (h : s.Orderly)
    (hstage : s.stage = .reading p errno) (hc : s.heap p = some c) (hconn : c.connected = false)
    (hdata : Delivers hasOnData c errno r) :
    ¬ (s.onRead p left (TcpEndpoint.onReadIter p hasOnData (s.call c errno) r)).Follows p := by
  have hnothing := h.history_of_open (h.open_current (by rw [hstage]; rfl) hc) hconn
  have hexit : (TcpEndpoint.onReadIter p hasOnData (s.call c errno) r).2 = some .delivering :=
    delivering_iff.mpr hdata
  rcases hiter : TcpEndpoint.onReadIter p hasOnData (s.call c errno) r with ⟨io, exit⟩
  rw [hiter] at hexit
  obtain rfl : exit = some .delivering := hexit
  intro hfollows
  have hhistory : (s.onRead p left (io, some .delivering)).history p = [] ++ .onData :: [] := by
    rw [ClientLoop.onRead, history_note_self]
    exact congrArg (· ++ [ClientEvent.onData]) hnothing
  cases hfollows.first [] [] hhistory

/-- `onConnect_` on a channel whose connect did not succeed. -/
theorem not_follows_onConnect (hfailed : s.conn p ≠ .succeeded) :
    ¬ (s.onConnect p c).Follows p := by
  intro hfollows
  refine hfailed (hfollows.succeeded ?_)
  rw [ClientLoop.onConnect, history_note_self]
  exact List.mem_append_right _ List.mem_cons_self

end Orderly

/-- In every run of a client whose steps are careful, what each channel sees is in order, in every
    state reached; and the first test for `EPOLLOUT` or read that is not careful breaks it. -/
theorem follows_of_careful (hasOnData : Bool) (s : ClientLoop)
    (h : ((clientLoopRuns hasOnData).under (Careful hasOnData)).Reachable s) :
    (∀ p, s.Follows p) ∧
      ∀ l s', Step hasOnData s l s' → (∀ p msg, l ≠ .send p msg) → ¬ s.Careful hasOnData l →
        ∃ p, ¬ s'.Follows p := by
  have hord := Orderly.of_reachable h
  refine ⟨hord.follows, ?_⟩
  intro l s' hstep hsend hbad
  cases hstep with
  | send => exact absurd rfl (hsend _ _)
  | @read p c errno r left hstage hc =>
    simp only [Careful, not_forall, not_not] at hbad
    obtain ⟨p', errno', c', hstage', hc', hconn, hdata⟩ := hbad
    obtain ⟨rfl, rfl⟩ := LoopStage.reading.inj (hstage.symm.trans hstage')
    obtain rfl := Option.some.inj (hc.symm.trans hc')
    exact ⟨p, hord.not_follows_read hstage hc hconn hdata⟩
  | @writeTest p c errno hstage hc =>
    simp only [Careful, not_forall] at hbad
    obtain ⟨p', c', hstage', hc', hconn, hout, hfailed⟩ := hbad
    obtain rfl := LoopStage.writeTest.inj (hstage.symm.trans hstage')
    obtain rfl := Option.some.inj (hc.symm.trans hc')
    refine ⟨p, ?_⟩
    rw [s.testOut_onConnect hconn hout]
    exact Orderly.not_follows_onConnect hfailed
  | _ => exact absurd trivial hbad

theorem reachable_clientStep {s s' : ClientLoop} {l : ClientLoopStep}
    (h : ((clientLoopRuns true).under (Careful true)).Reachable s) (hl : s.Careful true l)
    (hstep : Step true s l s') : ((clientLoopRuns true).under (Careful true)).Reachable s' :=
  .next l h ⟨hl, hstep⟩

/-- The connect on descriptor 5 ends, epoll reports it, and the test for `EPOLLIN` goes by. -/
theorem reported_reachable (ok : Bool) (events : EventMask) (hin : events &&& EPOLLIN = 0) :
    ∃ s c, ((clientLoopRuns true).under (Careful true)).Reachable s ∧ s.stage = .writeTest 0 ∧
      s.heap 0 = some c ∧ c.connected = false ∧ c.event = events ∧
      s.conn 0 = if ok then .succeeded else .failed := by
  have hconnect := reachable_clientStep (l := .connect 0 5 false) (.start rfl) trivial
    (.connect rfl rfl)
  have hsettle := reachable_clientStep (l := .settle 0 ok) hconnect trivial
    (.settle (Option.some_ne_none _) rfl)
  have hpoll := reachable_clientStep (l := .poll 0 events) hsettle trivial
    (.poll rfl List.not_mem_nil ⟨5, EPOLLOUT, rfl⟩ rfl)
  have hhandle := reachable_clientStep (l := .handle) hpoll trivial (.handle rfl)
  have hread := reachable_clientStep (l := .readTest 0 0) hhandle trivial
    (.readTest rfl List.mem_cons_self rfl)
  refine ⟨_, _, hread, if_neg ?_, rfl, rfl, rfl, rfl⟩
  exact not_not.mpr hin

/-- A connect that succeeds. -/
theorem follows_of_careful_connected :
    ∃ s, ((clientLoopRuns true).under (Careful true)).Reachable s ∧ s.history 0 = [.onConnect] ∧
      s.Follows 0 := by
  obtain ⟨s, c, hs, hstage, hc, hconn, hevent, hok⟩ := reported_reachable true EPOLLOUT (by decide)
  have hcareful : s.Careful true (.writeTest 0) := by
    intro p c' hp hc' hconn' hout
    obtain rfl := LoopStage.writeTest.inj (hstage.symm.trans hp)
    exact hok
  have hreach := reachable_clientStep (l := .writeTest 0) hs hcareful (.writeTest hstage hc)
  have hord := Orderly.of_reachable hs
  have hnothing := hord.history_of_open (hord.open_current (by rw [hstage]; rfl) hc) hconn
  have hcalled : s.testOut 0 c 0 = s.onConnect 0 c :=
    s.testOut_onConnect hconn (by rw [hevent]; decide)
  refine ⟨_, hreach, ?_, (follows_of_careful true _ hreach).1 0⟩
  rw [hcalled, onConnect, history_note_self]
  exact congrArg (· ++ [ClientEvent.onConnect]) hnothing

/-- A connection that the peer refuses is taken for connected. -/
theorem onConnect_refused :
    ¬ ∀ s, (clientLoopRuns true).Reachable s → ∀ p, s.Follows p := by
  intro h
  obtain ⟨s, c, hs, hstage, hc, hconn, hevent, hfailed⟩ :=
    reported_reachable false (EPOLLOUT ||| EPOLLERR ||| EPOLLHUP) (by decide)
  have hreach : (clientLoopRuns true).Reachable (s.testOut 0 c 0) :=
    .next _ hs.of_under (.writeTest hstage hc)
  have hcalled : s.testOut 0 c 0 = s.onConnect 0 c :=
    s.testOut_onConnect hconn (by rw [hevent]; decide)
  refine Orderly.not_follows_onConnect (p := 0) (c := c) ?_ (hcalled ▸ h _ hreach 0)
  rw [hfailed]
  exact Connecting.noConfusion

end ClientLoop

end Codechiev
