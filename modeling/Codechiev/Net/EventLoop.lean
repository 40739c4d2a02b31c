import Codechiev.Library.Transition
import Codechiev.Net.Endpoint

/-!
# The event loop and the interest masks

The runs of a server's or a client's loop: connections are made, any thread sends, and the loop
calls `onRead`, `onWrite`, `onConnect` and `onClose` on the channels that epoll reported, as
`pollEvent` does, each call being one step. The order of the calls is left open. Of the four
operations that overwrite an interest mask, `write` and `onWrite` look at the write buffer first,
while `onRead` and the client's `onConnect` set `EPOLLIN` whatever is queued.
-/

namespace Codechiev

/-- Which `pollEvent` the loop runs. -/
inductive Role where
  | server
  | client
  deriving DecidableEq

namespace Role

/-- The mask a new channel is registered with, by `TcpServer::onConnect` and
    `TcpClient::connect`. -/
def firstEvent : Role → EventMask
  | server => EPOLLIN
  | client => EPOLLOUT

end Role

/-- The endpoint, and the channels of the vector that `poll` filled. -/
structure EventLoop extends Endpoint where
  polled : List Ptr

/-- One step of a run. The sends in a label are those its callback makes, and `onData` is what the
    callback leaves of the read buffer. -/
inductive LoopStep where
  | connect (p : Ptr) (fd : Fd)
  | send (p : Ptr) (msg : List UInt8)
  | poll (p : Ptr) (events : EventMask)
  | onRead (p : Ptr) (errno : Errno) (script : List ReadResult)
      (onData : ChannelBuffer → ChannelBuffer) (sends : List (Ptr × List UInt8))
  | onWrite (p : Ptr) (errno : Errno) (script : List WriteResult)
  | onConnect (p : Ptr) (sends : List (Ptr × List UInt8))
  | onClose (p : Ptr)

namespace EventLoop

/-- `onClose`, after which the loop is done with the channel. -/
def onClose (s : EventLoop) (p : Ptr) (c : Channel) : EventLoop :=
  { toEndpoint := s.toEndpoint.onClose p c, polled := s.polled.filter (· ≠ p) }

/-- What follows the loop of `onRead`: `onClose`, or `onData_` with the sends it makes, or
    nothing. -/
def afterRead (s : EventLoop) (p : Ptr) (io : ChannelCall) (exit : ReadExit)
    (onData : ChannelBuffer → ChannelBuffer) (sends : List (Ptr × List UInt8)) : EventLoop :=
  match exit with
  | .closing => { s with toEndpoint := s.store p io }.onClose p io.channel
  | .delivering =>
    let io := { io with channel := { io.channel with readbuf := onData io.channel.readbuf } }
    { s with toEndpoint := (s.store p io).sendAll sends }
  | .failed | .waiting => { s with toEndpoint := s.store p io }

/-- `TcpClient::onConnect` up to its callback. -/
def onConnect (s : EventLoop) (p : Ptr) (c : Channel) : Endpoint :=
  s.store p (TcpEndpoint.updateChannel p (s.call (c.setConnected true) 0) EPOLLIN)

/-- The steps. A channel is called on while it is in the vector, and when its `event_` has the bits
    that `pollEvent` tests. -/
inductive Step (role : Role) (hasOnData : Bool) : EventLoop → LoopStep → EventLoop → Prop where
  | connect {s : EventLoop} {p : Ptr} {fd : Fd} (hp : s.heap p = none) (hfd : s.fds fd = none) :
      Step role hasOnData s (.connect p fd)
        { s with toEndpoint := s.addChannel p fd role.firstEvent }
  | send {s : EventLoop} {p : Ptr} {msg : List UInt8} :
      Step role hasOnData s (.send p msg) { s with toEndpoint := s.toEndpoint.send p msg }
  | poll {s : EventLoop} {p : Ptr} {c : Channel} {fd : Fd} {m events : EventMask}
      (hep : s.epoll fd = some ⟨m, p⟩) (hc : s.heap p = some c)
      (hevents : events &&& ~~~(m ||| EPOLLERR ||| EPOLLHUP) = 0) :
      Step role hasOnData s (.poll p events)
        { toEndpoint := s.store p { s.call c 0 with channel := c.setEvent events }
          polled := p :: s.polled }
  | onRead {s : EventLoop} {p : Ptr} {c : Channel} {errno : Errno} {script : List ReadResult}
      {io : ChannelCall} {exit : ReadExit} {onData : ChannelBuffer → ChannelBuffer}
      {sends : List (Ptr × List UInt8)} (hp : p ∈ s.polled) (hc : s.heap p = some c)
      (hevent : c.event &&& EPOLLIN ≠ 0)
      (hrun : TcpEndpoint.onRead p hasOnData (s.call c errno) script = some (io, exit))
      (hsends : exit ≠ .delivering → sends = []) :
      Step role hasOnData s (.onRead p errno script onData sends)
        (s.afterRead p io exit onData sends)
  | onWrite {s : EventLoop} {p : Ptr} {c : Channel} {errno : Errno} {script : List WriteResult}
      {io : ChannelCall} {ret : Bool} (hp : p ∈ s.polled) (hc : s.heap p = some c)
      (hevent : c.event &&& EPOLLOUT ≠ 0) (hrole : role = .client → c.connected = true)
      (hrun : TcpEndpoint.onWrite p (s.call c errno) script = some (io, ret)) :
      Step role hasOnData s (.onWrite p errno script) { s with toEndpoint := s.store p io }
  | onConnect {s : EventLoop} {p : Ptr} {c : Channel} {sends : List (Ptr × List UInt8)}
      (hp : p ∈ s.polled) (hc : s.heap p = some c) (hevent : c.event &&& EPOLLOUT ≠ 0)
      (hrole : role = .client ∧ c.connected = false) :
      Step role hasOnData s (.onConnect p sends)
        { s with toEndpoint := (s.onConnect p c).sendAll sends }
  | onClose {s : EventLoop} {p : Ptr} {c : Channel} (hp : p ∈ s.polled) (hc : s.heap p = some c)
      (hevent : c.event &&& (EPOLLHUP ||| EPOLLRDHUP) ≠ 0) :
      Step role hasOnData s (.onClose p) (s.onClose p c)

/-- The runs of a loop that starts without connections. -/
def loopRuns (role : Role) (hasOnData : Bool) : LabelledSystem EventLoop LoopStep where
  init s := s = ⟨.empty, []⟩
  step := Step role hasOnData

/-- Every open channel with bytes queued is registered in epoll, with a mask that has
    `EPOLLOUT`. -/
def NoStall (s : EventLoop) : Prop :=
  ∀ p c, s.Open p c → 0 < c.writebuf.readable →
    ∃ m, s.epoll c.fd = some ⟨m, p⟩ ∧ m &&& EPOLLOUT ≠ 0

/-- Nothing is queued on the channel at `p`. -/
def Drained (s : EventLoop) (p : Ptr) : Prop :=
  ∀ c, s.heap p = some c → c.writebuf.readable = 0

/-- The steps that leave no queued bytes without `EPOLLOUT`: `onRead` and `onConnect` find nothing
    queued, unless the call reads the end of the stream or its callback sends on the same channel,
    and no send goes to a closed channel whose descriptor number another connection has. -/
def Careful (s : EventLoop) : LoopStep → Prop
  | .send p _ => s.Unshared p
  | .onRead p errno script _ sends =>
    (s.Drained p ∨ TcpEndpoint.ReadsEof errno script ∨ p ∈ sends.map Prod.fst) ∧
      ∀ x ∈ sends, s.Unshared x.1
  | .onConnect p sends =>
    (s.Drained p ∨ p ∈ sends.map Prod.fst) ∧ ∀ x ∈ sends, s.Unshared x.1
  | .connect _ _ | .poll _ _ | .onWrite _ _ _ | .onClose _ => True

end EventLoop

/-! ## Which calls stall a channel -/

namespace Endpoint

/-- The channel at `p` is open and has bytes queued, and the mask registered with its pointer does
    not have `EPOLLOUT`. -/
def Stalled (e : Endpoint) (p : Ptr) : Prop :=
  ∃ c, e.Open p c ∧ c.writebuf.readable ≠ 0 ∧ ∀ m, e.epoll c.fd = some ⟨m, p⟩ → m &&& EPOLLOUT = 0

variable {e : Endpoint} {p q : Ptr} {c : Channel} {io : ChannelCall} {errno : Errno}

/-- A call on the channel at `p` stalls no other channel. -/
theorem Stalled.of_store (h : (e.store p io).Stalled q) (hne : q ≠ p) (hp : e.heap p = some c)
    (hfree : e.Unshared p) (hlocal : ChannelCall.Local p (e.call c errno) io) : e.Stalled q := by
  obtain ⟨c', ⟨hheap, hfds⟩, hqueued, hmask⟩ := h
  rw [store_heap_of_ne hne] at hheap
  have hfd : c'.fd ≠ c.fd := fun heq => hne (hfree c q hp (heq ▸ hfds))
  exact ⟨c', ⟨hheap, hfds⟩, hqueued, fun m hm => hmask m ((hlocal.other _ hfd).trans hm)⟩

/-- A call that leaves a mask with `EPOLLOUT`, if bytes are queued, does not stall the channel. -/
theorem not_stalled_store (hlocal : ChannelCall.Local p (e.call c errno) io)
    (hmask : ∃ m, io.epoll c.fd = some ⟨m, p⟩ ∧
      (io.channel.writebuf.readable ≠ 0 → m &&& EPOLLOUT ≠ 0)) : ¬ (e.store p io).Stalled p := by
  rintro ⟨c', ⟨hheap, -⟩, hqueued, hnone⟩
  obtain rfl : io.channel = c' := Option.some.inj ((store_heap_self e p io).symm.trans hheap)
  obtain ⟨m, hm, hout⟩ := hmask
  have hfd : io.channel.fd = c.fd := hlocal.fd_eq
  exact hout hqueued (hnone m ((congrArg _ hfd).trans hm))

theorem not_stalled_of_drained (h : ∀ c, e.heap p = some c → c.writebuf.readable = 0) :
    ¬ e.Stalled p :=
  fun ⟨c, hopen, hqueued, _⟩ => hqueued (h c hopen.1)

theorem not_stalled_send {msg : List UInt8} (h : e.Wired) : ¬ (e.send p msg).Stalled p := by
  simp only [send]
  split
  · rename_i c hc
    have hlocal := TcpEndpoint.write_local p (e.call c 0) msg
    intro hst
    have hopen : e.fds c.fd = some p := by
      obtain ⟨c', ⟨hheap, hfds⟩, -⟩ := hst
      obtain rfl := Option.some.inj ((store_heap_self e p _).symm.trans hheap)
      exact hlocal.fd_eq ▸ hfds
    obtain ⟨m, hm⟩ := h.registered _ _ hopen
    have hmask := TcpEndpoint.write_mask (e.call c 0) msg hm
    exact not_stalled_store hlocal hmask hst
  · rename_i hnone
    rintro ⟨c, hopen, -⟩
    cases hnone.symm.trans hopen.1

theorem Stalled.of_send {msg : List UInt8} (h : (e.send p msg).Stalled q) (hwired : e.Wired)
    (hfree : e.Unshared p) : e.Stalled q ∧ q ≠ p := by
  have hne : q ≠ p := by
    rintro rfl
    exact not_stalled_send hwired h
  refine ⟨?_, hne⟩
  simp only [send] at h
  split at h
  · rename_i c hc
    exact h.of_store hne hc hfree (TcpEndpoint.write_local p (e.call c 0) msg)
  · exact h

theorem Unshared.store (h : e.Unshared q) (hc : e.heap p = some c)
    (hlocal : ChannelCall.Local p (e.call c errno) io) : (e.store p io).Unshared q := by
  intro c' r hc' hr
  by_cases heq : q = p
  · subst heq
    obtain rfl := Option.some.inj ((store_heap_self e q io).symm.trans hc')
    exact h c r hc (hlocal.fd_eq ▸ hr)
  · exact h c' r ((store_heap_of_ne heq).symm.trans hc') hr

theorem Unshared.send {msg : List UInt8} (h : e.Unshared q) : (e.send p msg).Unshared q := by
  simp only [Endpoint.send]
  split
  · rename_i c hc
    exact h.store hc (TcpEndpoint.write_local p (e.call c 0) msg)
  · exact h

/-- Sends keep the wiring, and a channel that is stalled after them was so before and got none of
    them. -/
theorem sendAll_wired {sends : List (Ptr × List UInt8)} (h : e.Wired)
    (hfree : ∀ x ∈ sends, e.Unshared x.1) :
    (e.sendAll sends).Wired ∧
      ∀ q, (e.sendAll sends).Stalled q → e.Stalled q ∧ q ∉ sends.map Prod.fst := by
  induction sends generalizing e with
  | nil => exact ⟨h, fun q hq => ⟨hq, List.not_mem_nil⟩⟩
  | cons x rest ih =>
    obtain ⟨p, msg⟩ := x
    have hp : e.Unshared p := hfree (p, msg) List.mem_cons_self
    obtain ⟨hwired, hrest⟩ := ih (e := e.send p msg) (h.send hp)
      fun y hy => (hfree y (List.mem_cons_of_mem _ hy)).send
    refine ⟨hwired, fun q hq => ?_⟩
    obtain ⟨hstalled, hnot⟩ := hrest q hq
    obtain ⟨hbefore, hne⟩ := hstalled.of_send h hp
    refine ⟨hbefore, ?_⟩
    rw [List.map_cons, List.mem_cons, not_or]
    exact ⟨hne, hnot⟩

theorem sendAll_fds (e : Endpoint) (sends : List (Ptr × List UInt8)) :
    (e.sendAll sends).fds = e.fds := by
  induction sends generalizing e with
  | nil => rfl
  | cons x rest ih =>
    obtain ⟨p, msg⟩ := x
    exact (ih (e.send p msg)).trans (send_fds e p msg)

end Endpoint

namespace EventLoop

open Endpoint

variable {role : Role} {hasOnData : Bool} {s s' : EventLoop} {l : LoopStep}

/-- The endpoint is wired, no channel is stalled, and the channels the loop is about to call on
    are open. -/
structure Served (s : EventLoop) : Prop where
  wired : s.toEndpoint.Wired
  moving : ∀ p, ¬ s.toEndpoint.Stalled p
  polled_open : ∀ p ∈ s.polled, ∃ fd, s.fds fd = some p

/-- A loop whose endpoint has the same descriptors and stalls nothing is served. -/
theorem Served.replace {e : Endpoint} (h : s.Served) (hwired : e.Wired)
    (hmoving : ∀ p, ¬ e.Stalled p) (hfds : e.fds = s.fds) :
    Served { s with toEndpoint := e } :=
  ⟨hwired, hmoving, fun p hp => hfds ▸ h.polled_open p hp⟩

theorem Served.open_polled {p : Ptr} {c : Channel} (h : s.Served) (hp : p ∈ s.polled)
    (hc : s.heap p = some c) : s.Open p c := by
  obtain ⟨fd, hfd⟩ := h.polled_open p hp
  obtain ⟨c', hc', rfl⟩ := h.wired.owner fd p hfd
  obtain rfl : c' = c := Option.some.inj (hc'.symm.trans hc)
  exact ⟨hc, hfd⟩

theorem Served.onClose {p : Ptr} {c : Channel} (hwired : s.toEndpoint.Wired)
    (hmoving : ∀ q, q ≠ p → ¬ s.toEndpoint.Stalled q)
    (hpolled : ∀ q ∈ s.polled, ∃ fd, s.fds fd = some q) (hopen : s.Open p c) :
    (s.onClose p c).Served := by
  refine ⟨hwired.onClose hopen, fun q ⟨c', ⟨hheap, hfds⟩, hqueued, hmask⟩ => ?_, ?_⟩
  · -- an open channel has another number than the one that was closed
    have hfd : c'.fd ≠ c.fd := by
      intro heq
      rw [heq] at hfds
      cases (onClose_fds_self _ p c).symm.trans hfds
    rw [EventLoop.onClose, onClose_fds_of_ne hfd] at hfds
    have hne : q ≠ p := by
      rintro rfl
      have := (onClose_heap_self s.toEndpoint q c).symm.trans hheap
      exact hfd (congrArg Channel.fd (Option.some.inj this)).symm
    refine hmoving q hne ⟨c', ⟨(onClose_heap_of_ne hne).symm.trans hheap, hfds⟩, hqueued, ?_⟩
    exact fun m hm => hmask m ((onClose_epoll_of_ne hfd).trans hm)
  · intro q hq
    obtain ⟨hmem, hne⟩ := List.mem_filter.mp hq
    obtain ⟨fd, hfd⟩ := hpolled q hmem
    refine ⟨fd, (onClose_fds_of_ne ?_).trans hfd⟩
    rintro rfl
    exact absurd (Option.some.inj (hopen.2.symm.trans hfd)).symm (by simpa using hne)

/-- A call on a polled channel, followed by the sends of a callback. -/
theorem Served.store_sendAll {p : Ptr} {c : Channel} {io : ChannelCall} {errno : Errno}
    {sends : List (Ptr × List UInt8)} (h : s.Served) (hopen : s.Open p c)
    (hlocal : ChannelCall.Local p (s.call c errno) io)
    (hp : io.channel.writebuf.readable = 0 ∨ p ∈ sends.map Prod.fst)
    (hsends : ∀ x ∈ sends, s.Unshared x.1) :
    Served { s with toEndpoint := (s.store p io).sendAll sends } := by
  obtain ⟨hwired, hstalled⟩ := sendAll_wired (h.wired.store hopen.1 (.inl hopen.unshared) hlocal)
    fun x hx => (hsends x hx).store hopen.1 hlocal
  refine h.replace hwired (fun q hq => ?_) (sendAll_fds _ _)
  obtain ⟨hst, hnot⟩ := hstalled q hq
  by_cases hne : q = p
  · -- the call may have set `EPOLLIN` alone, but nothing is queued, or a send set the mask again
    subst hne
    refine not_stalled_of_drained (fun c' hc' => ?_) hst
    obtain rfl := Option.some.inj ((store_heap_self _ q io).symm.trans hc')
    exact hp.resolve_right hnot
  · exact h.moving q (hst.of_store hne hopen.1 hopen.unshared hlocal)

theorem Served.connect {p : Ptr} {fd : Fd} {events : EventMask} (h : s.Served)
    (hp : s.heap p = none) (hfd : s.fds fd = none) :
    Served { s with toEndpoint := s.addChannel p fd events } := by
  refine ⟨h.wired.addChannel hp hfd, ?_, ?_⟩
  · rintro q ⟨c, ⟨hheap, hfds⟩, hqueued, hmask⟩
    by_cases hne : q = p
    · subst hne
      obtain rfl := Option.some.inj ((addChannel_heap_self _ q fd events).symm.trans hheap)
      exact hqueued rfl
    · have hcfd : c.fd ≠ fd := by
        rintro rfl
        exact hne (Option.some.inj ((addChannel_fds_self _ p c.fd events).symm.trans hfds)).symm
      refine h.moving q ⟨c, ⟨(addChannel_heap_of_ne hne).symm.trans hheap,
        (addChannel_fds_of_ne hcfd).symm.trans hfds⟩, hqueued, fun m hm => hmask m ?_⟩
      exact (EPoll.ctlAdd_of_ne hcfd).trans hm
  · intro q hq
    obtain ⟨fd', hfd'⟩ := h.polled_open q hq
    refine ⟨fd', (addChannel_fds_of_ne ?_).trans hfd'⟩
    rintro rfl
    cases hfd.symm.trans hfd'

theorem Served.poll {p : Ptr} {c : Channel} {fd : Fd} {m events : EventMask} (h : s.Served)
    (hep : s.epoll fd = some ⟨m, p⟩) (hc : s.heap p = some c) :
    Served ⟨s.store p { s.call c 0 with channel := c.setEvent events }, p :: s.polled⟩ := by
  obtain ⟨c', hopen⟩ := h.wired.open_of_registered ⟨fd, m, hep⟩
  obtain rfl : c' = c := Option.some.inj (hopen.1.symm.trans hc)
  have hlocal : ChannelCall.Local p (s.call c' 0)
      { s.call c' 0 with channel := c'.setEvent events } := .of_epoll_eq rfl rfl
  refine ⟨h.wired.store hc (.inl hopen.unshared) hlocal, ?_, ?_⟩
  · intro q hq
    by_cases hne : q = p
    · subst hne
      obtain ⟨c₁, ⟨hheap, hfds⟩, hqueued, hmask⟩ := hq
      obtain rfl := Option.some.inj ((store_heap_self _ q _).symm.trans hheap)
      exact h.moving q ⟨c', hopen, hqueued, hmask⟩
    · exact h.moving q (hq.of_store hne hc hopen.unshared hlocal)
  · simp only [List.mem_cons, forall_eq_or_imp]
    exact ⟨⟨c'.fd, hopen.2⟩, h.polled_open⟩

theorem Served.afterRead {p : Ptr} {c : Channel} {io : ChannelCall} {errno : Errno}
    {script : List ReadResult} {exit : ReadExit} {onData : ChannelBuffer → ChannelBuffer}
    {sends : List (Ptr × List UInt8)} (h : s.Served) (hopen : s.Open p c)
    (hrun : TcpEndpoint.onRead p hasOnData (s.call c errno) script = some (io, exit))
    (hexit : exit ≠ .delivering → sends = [])
    (hp : c.writebuf.readable = 0 ∨ exit = .closing ∨ p ∈ sends.map Prod.fst)
    (hsends : ∀ x ∈ sends, s.Unshared x.1) : (s.afterRead p io exit onData sends).Served := by
  obtain ⟨hlocal, hbuf⟩ := TcpEndpoint.onRead_local hrun
  have hqueued : io.channel.writebuf.readable = c.writebuf.readable := by rw [hbuf]; rfl
  have hnone : ∀ x ∈ ([] : List (Ptr × List UInt8)), s.Unshared x.1 := by simp
  cases exit with
  | closing =>
    refine Served.onClose (h.wired.store hopen.1 (.inl hopen.unshared) hlocal)
      (fun q hne hq => h.moving q (hq.of_store hne hopen.1 hopen.unshared hlocal)) h.polled_open
      ⟨store_heap_self _ _ _, ?_⟩
    rw [hlocal.fd_eq]
    exact hopen.2
  | delivering =>
    refine h.store_sendAll hopen (hlocal.trans (.of_epoll_eq rfl rfl)) ?_ hsends
    rcases hp with hp | hp | hp
    · exact .inl (hqueued.trans hp)
    · cases hp
    · exact .inr hp
  | failed =>
    refine h.store_sendAll hopen hlocal (.inl (hqueued.trans (hp.resolve_right ?_))) hnone
    simp [hexit]
  | waiting =>
    refine h.store_sendAll hopen hlocal (.inl (hqueued.trans (hp.resolve_right ?_))) hnone
    simp [hexit]

/-- One careful step. -/
theorem Served.step (h : s.Served) (hl : s.Careful l) (hstep : Step role hasOnData s l s') :
    s'.Served := by
  cases hstep with
  | connect hp hfd => exact h.connect hp hfd
  | send =>
    refine h.replace (h.wired.send hl) (fun q hq => ?_) (send_fds _ _ _)
    exact h.moving q (hq.of_send h.wired hl).1
  | poll hep hc => exact h.poll hep hc
  | onRead hp hc hevent hrun hexit =>
    refine h.afterRead (h.open_polled hp hc) hrun hexit ?_ hl.2
    refine hl.1.imp (fun hd => hd _ hc) (Or.imp_left fun heof => ?_)
    exact TcpEndpoint.onRead_closing heof hrun
  | @onWrite p _ _ _ _ _ hp hc hevent hrole hrun =>
    have hopen := h.open_polled hp hc
    obtain ⟨m, hm⟩ := h.wired.epoll_of_open hopen
    have hmask := TcpEndpoint.onWrite_mask hrun (fun hnone => nomatch hm.symm.trans hnone)
    have hlocal := TcpEndpoint.onWrite_local hrun
    refine h.replace (h.wired.store hc (.inl hopen.unshared) hlocal) (fun q hq => ?_) rfl
    by_cases hne : q = p
    · subst hne
      exact not_stalled_store hlocal hmask hq
    · exact h.moving q (hq.of_store hne hc hopen.unshared hlocal)
  | @onConnect p c _ hp hc hevent hrole =>
    have hlocal : ChannelCall.Local p (s.call c 0)
        (TcpEndpoint.updateChannel p (s.call (c.setConnected true) 0) EPOLLIN) :=
      .from_start (TcpEndpoint.updateChannel_local _ _ _) rfl rfl
    exact h.store_sendAll (h.open_polled hp hc) hlocal (hl.1.imp_left fun hd => hd c hc) hl.2
  | onClose hp hc hevent =>
    exact Served.onClose h.wired (fun q _ => h.moving q) h.polled_open (h.open_polled hp hc)

/-- In every run of a server's or a client's loop whose steps are careful, every open channel with
    bytes queued is registered with a mask that has `EPOLLOUT`, in every state reached. -/
theorem noStall_of_careful (role : Role) (hasOnData : Bool) (s : EventLoop)
    (h : ((loopRuns role hasOnData).under Careful).Reachable s) : s.NoStall := by
  have hserved : s.Served := by
    refine h.invariant (I := Served) ?_ ?_
    · rintro s rfl
      exact ⟨wired_empty, fun p ⟨c, hopen, _⟩ => (nomatch hopen.1), by simp⟩
    · rintro s l s' - hs ⟨hl, hstep⟩
      exact hs.step hl hstep
  intro p c hopen hqueued
  obtain ⟨m, hm⟩ := hserved.wired.epoll_of_open hopen
  refine ⟨m, hm, fun hout => hserved.moving p ⟨c, hopen, by omega, fun m' hm' => ?_⟩⟩
  rw [hm, Option.some.injEq, Registration.mk.injEq] at hm'
  exact hm'.1 ▸ hout

/-- A server after one connection, on descriptor 5. -/
def accepted : EventLoop := ⟨Endpoint.empty.addChannel 0 5 EPOLLIN, []⟩

/-- One byte is queued on it. -/
def queuedByte : EventLoop := { accepted with toEndpoint := accepted.toEndpoint.send 0 [65] }

theorem reachable_step (h : (loopRuns role hasOnData).Reachable s)
    (hstep : Step role hasOnData s l s') : (loopRuns role hasOnData).Reachable s' := .next l h hstep

theorem accepted_reachable (hasOnData : Bool) :
    ((loopRuns .server hasOnData).under Careful).Reachable accepted :=
  .next (.connect 0 5) (.start rfl) ⟨trivial, .connect rfl rfl⟩

theorem queuedByte_reachable (hasOnData : Bool) :
    ((loopRuns .server hasOnData).under Careful).Reachable queuedByte := by
  refine .next (.send 0 [65]) (accepted_reachable hasOnData) ⟨?_, .send⟩
  rintro c q hc hq
  obtain rfl : (Channel.new 5).setEvent EPOLLIN = c := Option.some.inj hc
  exact (Option.some.inj hq).symm

/-- A byte is queued, then the peer's byte is read up to `EAGAIN`: the mask is `EPOLLIN`, and the
    loop does not go on to `onWrite`. -/
theorem onRead_stalls_queued_byte :
    ¬ ∀ (role : Role) (hasOnData : Bool) (s : EventLoop),
      (loopRuns role hasOnData).Reachable s → s.NoStall := by
  intro h
  have hpoll : Step .server false queuedByte (.poll 0 (EPOLLIN ||| EPOLLOUT)) _ :=
    .poll (show queuedByte.epoll 5 = some ⟨EPOLLIN ||| EPOLLOUT, 0⟩ from rfl) rfl (by decide)
  have hpolled := reachable_step (queuedByte_reachable false).of_under hpoll
  have hreach := reachable_step (l := .onRead 0 0 [.data [66], .error EAGAIN] id []) hpolled
    (.onRead List.mem_cons_self rfl (by decide) rfl fun _ => rfl)
  obtain ⟨m, hm, hout⟩ := h _ _ _ hreach 0 _ ⟨rfl, rfl⟩ (by decide)
  obtain rfl : EPOLLIN = m := congrArg Registration.events (Option.some.inj hm)
  exact hout (by decide)

theorem noStall_queuedByte : queuedByte.NoStall :=
  noStall_of_careful .server false queuedByte (queuedByte_reachable false)

end EventLoop

end Codechiev
