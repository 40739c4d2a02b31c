import Codechiev.Library.Transition
import Codechiev.Net.Endpoint

/-!
# `net::TcpServer` and the ownership of descriptors

The loop thread accepts and closes connections, while other threads hold `channel_ptr`s, which
they got from `getChannel` or by locking the weak pointer of a `PbRpcChannel`, and send on them.
`onClose` is two steps, since `channels_.erase` comes after the descriptor is closed and without
the mutex. A held channel outlives its descriptor, and `send` runs `EPOLL_CTL_MOD` with the number
it had.
-/

namespace Codechiev

/-- The endpoint, `channels_`, the vector that `poll` filled, and the descriptor that `onClose`
    has closed and not yet erased. -/
structure TcpServer extends Endpoint where
  channels : Fd → Option Ptr
  polled : List Ptr
  closing : Option Fd

namespace TcpServer

def empty : TcpServer :=
  { toEndpoint := .empty, channels := fun _ => none, polled := [], closing := none }

/-- `TcpServer::onConnect`, for the descriptor that `::accept` returned. -/
def onConnect (s : TcpServer) (p : Ptr) (fd : Fd) : TcpServer :=
  { s with
    toEndpoint := s.addChannel p fd EPOLLIN
    channels := Function.update s.channels fd (some p) }

/-- `poll`: the channel joins the vector, with the mask that epoll reported. -/
def poll (s : TcpServer) (p : Ptr) (c : Channel) (events : EventMask) : TcpServer :=
  { s with
    toEndpoint := s.store p { s.call c 0 with channel := c.setEvent events }
    polled := p :: s.polled }

/-- `onClose` up to the end of `TcpEndpoint::onClose`. -/
def onClose (s : TcpServer) (p : Ptr) (c : Channel) : TcpServer :=
  { s with
    toEndpoint := s.toEndpoint.onClose p c
    polled := s.polled.filter (· ≠ p)
    closing := some c.fd }

/-- `channels_.erase(channel->getFd())`. -/
def erase (s : TcpServer) (fd : Fd) : TcpServer :=
  { s with channels := Function.update s.channels fd none, closing := none }

/-- `getChannel(int)`. -/
def getChannel (s : TcpServer) (fd : Fd) : Option Ptr := s.channels fd

/-- The entry that epoll has for the descriptor of an open connection points to the channel stored
    under it in `channels_`. -/
def Owned (s : TcpServer) : Prop :=
  ∀ fd p, s.fds fd = some p → ∃ r, s.epoll fd = some r ∧ s.channels fd = some r.ptr

/-- A send on the channel at `p` queues bytes, and `p` is a closed channel whose descriptor number
    another connection has. -/
def Steals (s : TcpServer) (p : Ptr) (msg : List UInt8) : Prop :=
  ∃ c q, s.heap p = some c ∧ s.fds c.fd = some q ∧ q ≠ p ∧ (c.write msg).writebuf.readable ≠ 0

/-- The server and the pointers that each thread holds. -/
structure Shared (τ : Type*) extends TcpServer where
  held : τ → List Ptr

/-- One step: of the loop thread, or of the thread that is named first. -/
inductive SharedStep (τ : Type*) where
  | accept (p : Ptr) (fd : Fd)
  | poll (p : Ptr) (events : EventMask)
  | close (p : Ptr)
  | erase
  | getChannel (t : τ) (fd : Fd)
  | lock (t : τ) (p : Ptr)
  | release (t : τ) (p : Ptr)
  | send (t : τ) (p : Ptr) (msg : List UInt8)

namespace Shared

variable {τ : Type*} [DecidableEq τ]

/-- The object at `p` has an owner: `channels_` or a thread. -/
def Alive (s : Shared τ) (p : Ptr) : Prop :=
  (∃ fd, s.channels fd = some p) ∨ ∃ t, p ∈ s.held t

/-- Thread `t` gets a `channel_ptr`. -/
def hold (s : Shared τ) (t : τ) (p : Ptr) : Shared τ :=
  { s with held := Function.update s.held t (p :: s.held t) }

/-- The steps. The kernel may give a new connection any number that is not open. The loop thread
    does not accept before it has erased the channel it closed. -/
inductive Step : Shared τ → SharedStep τ → Shared τ → Prop where
  | accept {s : Shared τ} {p : Ptr} {fd : Fd} (hloop : s.closing = none) (hp : s.heap p = none)
      (hfd : s.fds fd = none) :
      Step s (.accept p fd) { s with toTcpServer := s.toTcpServer.onConnect p fd }
  | poll {s : Shared τ} {p : Ptr} {c : Channel} {events : EventMask} (hreg : s.Registered p)
      (hc : s.heap p = some c) :
      Step s (.poll p events) { s with toTcpServer := s.toTcpServer.poll p c events }
  | close {s : Shared τ} {p : Ptr} {c : Channel} (hloop : s.closing = none) (hp : p ∈ s.polled)
      (hc : s.heap p = some c) :
      Step s (.close p) { s with toTcpServer := s.toTcpServer.onClose p c }
  | erase {s : Shared τ} {fd : Fd} (hloop : s.closing = some fd) :
      Step s .erase { s with toTcpServer := s.toTcpServer.erase fd }
  | getChannel {s : Shared τ} {t : τ} {fd : Fd} {p : Ptr} (hp : s.getChannel fd = some p) :
      Step s (.getChannel t fd) (s.hold t p)
  | lock {s : Shared τ} {t : τ} {p : Ptr} (hp : s.Alive p) : Step s (.lock t p) (s.hold t p)
  | release {s : Shared τ} {t : τ} {p : Ptr} (hp : p ∈ s.held t) :
      Step s (.release t p) { s with held := Function.update s.held t ((s.held t).erase p) }
  | send {s : Shared τ} {t : τ} {p : Ptr} {msg : List UInt8} (hp : p ∈ s.held t) :
      Step s (.send t p msg) { s with toEndpoint := s.toEndpoint.send p msg }

/-- The runs of a server on which nobody is connected at first. -/
def serverRuns (τ : Type*) [DecidableEq τ] : LabelledSystem (Shared τ) (SharedStep τ) where
  init s := s = ⟨.empty, fun _ => []⟩
  step := Step

/-- The sends do not take the entry of another connection. -/
def Careful (s : Shared τ) : SharedStep τ → Prop
  | .send _ p msg => ¬ s.Steals p msg
  | _ => True

end Shared

/-- The endpoint is wired, `channels_` has every open connection, and what the loop thread is about
    to close is open, what it is about to erase is closed. -/
structure Accounted (s : TcpServer) : Prop where
  wired : s.toEndpoint.Wired
  stored : ∀ fd p, s.fds fd = some p → s.channels fd = some p
  polled_open : ∀ p ∈ s.polled, ∃ fd, s.fds fd = some p
  closing_closed : ∀ fd, s.closing = some fd → s.fds fd = none

namespace Accounted

open Endpoint

variable {s : TcpServer} {p : Ptr} {c : Channel} {fd : Fd}

theorem empty : TcpServer.empty.Accounted :=
  ⟨wired_empty, nofun, nofun, nofun⟩

theorem owned (h : s.Accounted) : s.Owned := by
  intro fd p hfd
  obtain ⟨m, hm⟩ := h.wired.registered fd p hfd
  exact ⟨_, hm, h.stored fd p hfd⟩

theorem onConnect (h : s.Accounted) (hloop : s.closing = none) (hp : s.heap p = none)
    (hfd : s.fds fd = none) : (s.onConnect p fd).Accounted := by
  refine ⟨h.wired.addChannel hp hfd, ?_, ?_, ?_⟩
  · intro fd' q hq
    by_cases heq : fd' = fd
    · subst heq
      exact (Function.update_self _ _ _).trans ((addChannel_fds_self _ p fd' _).symm.trans hq)
    · exact (Function.update_of_ne heq _ _).trans
        (h.stored fd' q ((addChannel_fds_of_ne heq).symm.trans hq))
  · intro q hq
    obtain ⟨fd', hfd'⟩ := h.polled_open q hq
    refine ⟨fd', (addChannel_fds_of_ne ?_).trans hfd'⟩
    rintro rfl
    cases hfd.symm.trans hfd'
  · intro fd' hfd'
    cases hloop.symm.trans hfd'

theorem store {io : ChannelCall} {errno : Errno} (h : s.Accounted) (hc : s.heap p = some c)
    (hfree : s.Unshared p ∨ io.epoll = s.epoll)
    (hlocal : ChannelCall.Local p (s.call c errno) io) :
    Accounted { s with toEndpoint := s.store p io } :=
  ⟨h.wired.store hc hfree hlocal, h.stored, h.polled_open, h.closing_closed⟩

theorem open_polled (h : s.Accounted) (hp : p ∈ s.polled) (hc : s.heap p = some c) :
    s.Open p c := by
  obtain ⟨fd, hfd⟩ := h.polled_open p hp
  obtain ⟨c', hc', rfl⟩ := h.wired.owner fd p hfd
  obtain rfl : c' = c := Option.some.inj (hc'.symm.trans hc)
  exact ⟨hc, hfd⟩

theorem poll {events : EventMask} (h : s.Accounted) (hreg : s.Registered p)
    (hc : s.heap p = some c) : (s.poll p c events).Accounted := by
  obtain ⟨c', hopen⟩ := h.wired.open_of_registered hreg
  have hlocal : ChannelCall.Local p (s.call c 0) { s.call c 0 with channel := c.setEvent events } :=
    .of_epoll_eq rfl rfl
  refine { h.store hc (.inr rfl) hlocal with polled_open := ?_ }
  simp only [TcpServer.poll, List.mem_cons, forall_eq_or_imp]
  exact ⟨⟨c'.fd, hopen.2⟩, h.polled_open⟩

theorem onClose (h : s.Accounted) (hp : p ∈ s.polled) (hc : s.heap p = some c) :
    (s.onClose p c).Accounted := by
  have hopen := h.open_polled hp hc
  have hself := onClose_fds_self s.toEndpoint p c
  refine ⟨h.wired.onClose hopen, ?_, ?_, ?_⟩
  · -- `channels_` still has the number of the closed connection, which nobody owns now
    intro fd' q hq
    by_cases heq : fd' = c.fd
    · subst heq
      cases hself.symm.trans hq
    · exact h.stored fd' q ((onClose_fds_of_ne heq).symm.trans hq)
  · intro q hq
    obtain ⟨hmem, hne⟩ := List.mem_filter.mp hq
    obtain ⟨fd', hfd'⟩ := h.polled_open q hmem
    refine ⟨fd', (onClose_fds_of_ne ?_).trans hfd'⟩
    rintro rfl
    exact absurd (Option.some.inj (hopen.2.symm.trans hfd')).symm (by simpa using hne)
  · intro fd' hfd'
    exact Option.some.inj hfd' ▸ hself

theorem erase (h : s.Accounted) (hloop : s.closing = some fd) : (s.erase fd).Accounted := by
  refine ⟨h.wired, fun fd' q hq => ?_, h.polled_open, nofun⟩
  have hne : fd' ≠ fd := by
    rintro rfl
    cases (h.closing_closed fd' hloop).symm.trans hq
  exact (Function.update_of_ne hne _ _).trans (h.stored fd' q hq)

theorem send {msg : List UInt8} (h : s.Accounted) (hsteal : ¬ s.Steals p msg) :
    Accounted { s with toEndpoint := s.toEndpoint.send p msg } := by
  have hfds := send_fds s.toEndpoint p msg
  refine ⟨?_, fun fd q hq => h.stored fd q (hfds ▸ hq), fun q hq => hfds ▸ h.polled_open q hq,
    fun fd hfd => hfds ▸ h.closing_closed fd hfd⟩
  cases hc : s.heap p with
  | none =>
    simp only [Endpoint.send, hc]
    exact h.wired
  | some c =>
    simp only [Endpoint.send, hc]
    refine h.wired.store hc ?_ (TcpEndpoint.write_local p (s.call c 0) msg)
    by_cases hqueued : (c.write msg).writebuf.readable = 0
    · have hwrite := TcpEndpoint.write_of_empty p (s.call c 0) msg hqueued
      exact .inr (congrArg ChannelCall.epoll hwrite)
    · refine .inl fun c' q hc' hq => ?_
      obtain rfl : c = c' := Option.some.inj (hc.symm.trans hc')
      by_contra hne
      exact hsteal ⟨c, q, hc, hq, hne, hqueued⟩

/-- A send that steals an entry leaves it with the pointer of the closed channel. -/
theorem not_owned_of_steals {msg : List UInt8} (h : s.Accounted) (hsteal : s.Steals p msg) :
    ¬ Owned { s with toEndpoint := s.toEndpoint.send p msg } := by
  obtain ⟨c, q, hc, hq, hne, hqueued⟩ := hsteal
  intro howned
  obtain ⟨r, hr, hstored⟩ := howned c.fd q ((congrFun (send_fds s.toEndpoint p msg) c.fd).trans hq)
  obtain ⟨m, hm⟩ := h.wired.registered c.fd q hq
  -- the number is registered, so `EPOLL_CTL_MOD` finds an entry and replaces its pointer
  have hnew : (TcpEndpoint.send p (s.call c 0) msg).epoll c.fd =
      some ⟨EPOLLIN ||| EPOLLOUT, p⟩ := by
    rw [TcpEndpoint.send, TcpEndpoint.write_of_queued p (s.call c 0) msg hqueued,
      ← Channel.write_fd c msg]
    exact TcpEndpoint.updateChannel_mask (by simp [Endpoint.call, hm])
  simp only [Endpoint.send, hc] at hr
  obtain rfl := Option.some.inj (hr.symm.trans hnew)
  exact hne (Option.some.inj ((h.stored c.fd q hq).symm.trans hstored))

end Accounted

namespace Shared

variable {τ : Type*} [DecidableEq τ] {s s' : Shared τ} {l : SharedStep τ}

theorem accounted_step (h : s.Accounted) (hl : s.Careful l) (hstep : Step s l s') :
    s'.Accounted := by
  cases hstep with
  | accept hloop hp hfd => exact h.onConnect hloop hp hfd
  | poll hreg hc => exact h.poll hreg hc
  | close hloop hp hc => exact h.onClose hp hc
  | erase hloop => exact h.erase hloop
  | getChannel hp => exact h
  | lock hp => exact h
  | release hp => exact h
  | send hp => exact h.send hl

/-- In every run of the loop thread's and the other threads' steps in which no send goes to a
    closed channel whose number another connection has, epoll's entry for an open connection points
    to the channel that `channels_` has. The first send that does ends that. -/
theorem owned_of_careful (τ : Type*) [DecidableEq τ] (s : Shared τ)
    (h : ((serverRuns τ).under Careful).Reachable s) :
    s.Owned ∧ ∀ (t : τ) (p : Ptr) (msg : List UInt8) (s' : Shared τ),
      Step s (.send t p msg) s' → s.Steals p msg → ¬ s'.Owned := by
  have hacc : s.Accounted := by
    refine h.invariant (I := fun s => s.Accounted) ?_ ?_
    · rintro s rfl
      exact Accounted.empty
    · rintro s l s' - hs ⟨hl, hstep⟩
      exact accounted_step hs hl hstep
  refine ⟨hacc.owned, fun t p msg s' hstep hsteal => ?_⟩
  cases hstep with
  | send hp => exact hacc.not_owned_of_steals hsteal

/-- A connection on descriptor 5, of which one thread got the pointer. -/
def gotChannel : Shared Unit :=
  ⟨TcpServer.empty.onConnect 0 5, Function.update (fun _ => []) () [0]⟩

/-- It is closed, and the next connection gets its number, while the thread holds the pointer. -/
def reused : Shared Unit :=
  let s := (gotChannel.poll 0 ((Channel.new 5).setEvent EPOLLIN) EPOLLRDHUP).onClose 0
    ((Channel.new 5).setEvent EPOLLRDHUP)
  ⟨(s.erase 5).onConnect 1 5, gotChannel.held⟩

theorem careful_step (h : ((serverRuns τ).under Careful).Reachable s) (hl : s.Careful l)
    (hstep : Step s l s') : ((serverRuns τ).under Careful).Reachable s' := .next l h ⟨hl, hstep⟩

theorem gotChannel_reachable : ((serverRuns Unit).under Careful).Reachable gotChannel := by
  have hstart : ((serverRuns Unit).under Careful).Reachable ⟨.empty, fun _ => []⟩ := .start rfl
  have haccept := careful_step (l := .accept 0 5) hstart trivial (.accept rfl rfl rfl)
  exact careful_step (l := .getChannel () 5) haccept trivial (.getChannel rfl)

theorem reused_reachable : ((serverRuns Unit).under Careful).Reachable reused := by
  have hpoll := careful_step (l := .poll 0 EPOLLRDHUP) gotChannel_reachable trivial
    (.poll ⟨5, EPOLLIN, rfl⟩ rfl)
  have hclose := careful_step (l := .close 0) hpoll trivial (.close rfl List.mem_cons_self rfl)
  have herase := careful_step (l := .erase) hclose trivial (.erase rfl)
  exact careful_step (l := .accept 1 5) herase trivial (.accept rfl rfl rfl)

/-- The thread sends one byte on the pointer it got, and takes over the entry of the new
    connection. -/
theorem send_steals_reused_fd :
    ¬ ∀ s : Shared Unit, (serverRuns Unit).Reachable s → s.Owned := by
  intro h
  have hsend : Step reused (.send () 0 [65]) _ := .send (by decide)
  obtain ⟨r, hr, hstored⟩ := h _ (.next _ reused_reachable.of_under hsend) 5 1 rfl
  obtain rfl : (⟨EPOLLIN ||| EPOLLOUT, 0⟩ : Registration) = r := Option.some.inj hr
  exact absurd (Option.some.inj hstored) (by decide)

theorem reused_owned :
    reused.Owned ∧ ∀ s', Step reused (.send () 0 [65]) s' → ¬ s'.Owned := by
  obtain ⟨howned, hsteals⟩ := owned_of_careful Unit reused reused_reachable
  exact ⟨howned, fun s' hstep => hsteals () 0 [65] s' hstep ⟨_, 1, rfl, rfl, by decide, by decide⟩⟩

end Shared

end TcpServer

end Codechiev
