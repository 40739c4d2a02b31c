import Codechiev.Net.TcpEndpoint

/-!
# The channels of one endpoint

The state that a `TcpServer` or a `TcpClient` works on: the descriptor table of the process, the
`Channel` objects and the epoll set. A `Channel` stays in the heap as long as somebody holds it,
which may be longer than its descriptor stays open, and the kernel may give the number of a closed
descriptor to a new connection. A `Ptr` is the identity of the object: it is never given twice.
-/

namespace Codechiev

/-- What a call on the channel at `p` may change of epoll: the entry of the channel's own
    descriptor, if there is one, to an entry with the pointer `p`. -/
structure ChannelCall.Local (p : Ptr) (io io' : ChannelCall) : Prop where
  fd_eq : io'.channel.fd = io.channel.fd
  other : ∀ fd, fd ≠ io.channel.fd → io'.epoll fd = io.epoll fd
  absent : io.epoll io.channel.fd = none → io'.epoll io.channel.fd = none
  entry : io'.epoll io.channel.fd = io.epoll io.channel.fd ∨
    ∃ m, io'.epoll io.channel.fd = some ⟨m, p⟩

namespace ChannelCall.Local

variable {p : Ptr} {io io₁ io' : ChannelCall}

theorem of_epoll_eq (hfd : io'.channel.fd = io.channel.fd) (hep : io'.epoll = io.epoll) :
    Local p io io' :=
  ⟨hfd, fun _ _ => by rw [hep], fun h => by rw [hep, h], .inl (by rw [hep])⟩

/-- Only the descriptor and the epoll set of the first state matter. -/
theorem from_start (h : Local p io₁ io') (hfd : io₁.channel.fd = io.channel.fd)
    (hep : io₁.epoll = io.epoll) : Local p io io' := by
  refine ⟨h.fd_eq.trans hfd, ?_, ?_, ?_⟩
  · intro fd hne
    rw [h.other fd (hfd.symm ▸ hne), hep]
  · rw [← hfd, ← hep]; exact h.absent
  · rw [← hfd, ← hep]; exact h.entry

theorem trans (h₁ : Local p io io₁) (h₂ : Local p io₁ io') : Local p io io' := by
  refine ⟨h₂.fd_eq.trans h₁.fd_eq, ?_, ?_, ?_⟩
  · intro fd hfd
    rw [h₂.other fd (h₁.fd_eq.symm ▸ hfd), h₁.other fd hfd]
  · intro h
    rw [← h₁.fd_eq]
    exact h₂.absent (h₁.fd_eq.symm ▸ h₁.absent h)
  · rcases h₂.entry with h | h
    · rw [h₁.fd_eq] at h
      rw [h]
      exact h₁.entry
    · exact .inr (h₁.fd_eq ▸ h)

end ChannelCall.Local

namespace TcpEndpoint

open ChannelCall

variable {p : Ptr} {io io' : ChannelCall}

theorem updateChannel_epoll (p : Ptr) (io : ChannelCall) (e : EventMask) :
    (updateChannel p io e).epoll = io.epoll.ctlMod io.channel.fd ⟨e, p⟩ := rfl

/-- A registered channel has the new mask afterwards. -/
theorem updateChannel_mask {e : EventMask} (h : io.epoll io.channel.fd ≠ none) :
    (updateChannel p io e).epoll io.channel.fd = some ⟨e, p⟩ := by
  rw [updateChannel_epoll, EPoll.ctlMod_self h]

theorem updateChannel_local (p : Ptr) (io : ChannelCall) (e : EventMask) :
    Local p io (updateChannel p io e) := by
  refine ⟨rfl, fun fd hfd => EPoll.ctlMod_of_ne hfd, ?_, ?_⟩
  · intro h
    rw [updateChannel_epoll, EPoll.ctlMod_of_none h, h]
  · by_cases h : io.epoll io.channel.fd = none
    · rw [updateChannel_epoll, EPoll.ctlMod_of_none h]
      exact .inl rfl
    · exact .inr ⟨e, updateChannel_mask h⟩

theorem write_of_queued (p : Ptr) (io : ChannelCall) (msg : List UInt8)
    (h : (io.channel.write msg).writebuf.readable ≠ 0) :
    write p io msg =
      updateChannel p { io with channel := io.channel.write msg } (EPOLLIN ||| EPOLLOUT) :=
  if_pos h

theorem write_of_empty (p : Ptr) (io : ChannelCall) (msg : List UInt8)
    (h : (io.channel.write msg).writebuf.readable = 0) :
    write p io msg = { io with channel := io.channel.write msg } :=
  if_neg (not_not.mpr h)

/-- After `write` the mask of a registered channel has `EPOLLOUT` whenever bytes are queued. -/
theorem write_mask (io : ChannelCall) {m : EventMask} (msg : List UInt8)
    (h : io.epoll io.channel.fd = some ⟨m, p⟩) :
    ∃ m', (write p io msg).epoll io.channel.fd = some ⟨m', p⟩ ∧
      ((write p io msg).channel.writebuf.readable ≠ 0 → m' &&& EPOLLOUT ≠ 0) := by
  by_cases hq : (io.channel.write msg).writebuf.readable = 0
  · rw [write_of_empty p io msg hq]
    exact ⟨m, h, fun hne => absurd hq hne⟩
  · rw [write_of_queued p io msg hq]
    refine ⟨EPOLLIN ||| EPOLLOUT, ?_, fun _ => by decide⟩
    rw [← Channel.write_fd io.channel msg]
    exact updateChannel_mask (by simp [h])

theorem write_local (p : Ptr) (io : ChannelCall) (msg : List UInt8) :
    Local p io (write p io msg) := by
  by_cases hq : (io.channel.write msg).writebuf.readable = 0
  · rw [write_of_empty p io msg hq]
    exact .of_epoll_eq (Channel.write_fd _ _) rfl
  · rw [write_of_queued p io msg hq]
    exact .from_start (updateChannel_local p _ _) (Channel.write_fd _ _) rfl

theorem onWriteIter_local (p : Ptr) (io : ChannelCall) (r : WriteResult) :
    Local p io (onWriteIter p io r).1 := by
  have hset : ∀ io : ChannelCall, Local p io
      { io with epoll := io.epoll.setChannel p io.channel } := fun io =>
    updateChannel_local p io io.channel.event
  simp only [onWriteIter]
  dsimp only [Channel.writeEvent]
  split
  · split
    · split
      · exact .from_start ((updateChannel_local p _ _).trans (hset _)) rfl rfl
      · exact .from_start ((updateChannel_local p _ _).trans (hset _)) rfl rfl
    · exact .of_epoll_eq rfl rfl
  · split
    · exact .from_start (updateChannel_local p _ _) rfl rfl
    · exact .of_epoll_eq rfl rfl

theorem onWrite_local {script : List WriteResult} {ret : Bool}
    (h : onWrite p io script = some (io', ret)) : Local p io io' := by
  induction script generalizing io with
  | nil => simp [onWrite] at h
  | cons r rs ih =>
    rw [onWrite_cons] at h
    split at h
    · rw [Option.some.injEq, Prod.mk.injEq] at h
      exact h.1 ▸ onWriteIter_local p io r
    · exact (onWriteIter_local p io r).trans (ih h)

/-- An iteration that does not return leaves epoll as it was. -/
theorem onWriteIter_epoll {r : WriteResult} (h : ¬ r.Ends io.errno) :
    (onWriteIter p io r).1.epoll = io.epoll := by
  simp only [WriteResult.Ends] at h
  simp only [onWriteIter]
  rw [if_pos fun h0 => h (.inl h0), if_neg fun h0 => h (.inr h0)]

/-- Both exits of `onWrite` set a mask that has `EPOLLOUT` if bytes are left. -/
theorem onWriteIter_mask {r : WriteResult} (hends : r.Ends io.errno)
    (h : io.epoll io.channel.fd ≠ none) :
    ∃ m, (onWriteIter p io r).1.epoll io.channel.fd = some ⟨m, p⟩ ∧
      ((onWriteIter p io r).1.channel.writebuf.readable ≠ 0 → m &&& EPOLLOUT ≠ 0) := by
  -- `setChannel` repeats what `updateChannel` did
  have htwice : ∀ m, ((io.epoll.ctlMod io.channel.fd ⟨m, p⟩).ctlMod io.channel.fd ⟨m, p⟩)
      io.channel.fd = some ⟨m, p⟩ := fun m => by
    rw [EPoll.ctlMod_ctlMod, EPoll.ctlMod_self h]
  simp only [onWriteIter]
  by_cases hlen : r.len = 0
  · simp only [hlen, ne_eq, not_true_eq_false, if_false, if_true]
    exact ⟨EPOLLIN, updateChannel_mask h, fun hne => absurd rfl hne⟩
  · rw [if_pos hlen, if_pos (hends.resolve_left hlen)]
    split
    · exact ⟨EPOLLIN ||| EPOLLOUT, htwice _, fun _ => by decide⟩
    · rename_i hempty
      exact ⟨EPOLLIN, htwice _, fun hne => absurd hne hempty⟩

theorem onWrite_mask {script : List WriteResult} {ret : Bool}
    (hrun : onWrite p io script = some (io', ret)) (h : io.epoll io.channel.fd ≠ none) :
    ∃ m, io'.epoll io.channel.fd = some ⟨m, p⟩ ∧
      (io'.channel.writebuf.readable ≠ 0 → m &&& EPOLLOUT ≠ 0) := by
  induction script generalizing io with
  | nil => simp [onWrite] at hrun
  | cons r rs ih =>
    rw [onWrite_cons] at hrun
    split at hrun
    · rename_i hends
      rw [Option.some.injEq, Prod.mk.injEq] at hrun
      exact hrun.1 ▸ onWriteIter_mask hends h
    · rename_i hends
      have hfd := (onWriteIter_local p io r).fd_eq
      rw [← hfd]
      exact ih hrun (by rw [hfd, onWriteIter_epoll hends]; exact h)

/-- `onRead` ends an iteration at its `EAGAIN` test with the mask `EPOLLIN`, and otherwise leaves
    epoll alone. Neither touches the write buffer. -/
theorem onReadIter_local (p : Ptr) (hasOnData : Bool) (io : ChannelCall) (r : ReadResult) :
    Local p io (onReadIter p hasOnData io r).1 ∧
      (onReadIter p hasOnData io r).1.channel.writebuf = io.channel.writebuf := by
  simp only [onReadIter]
  split
  · split
    · split
      · exact ⟨.from_start (updateChannel_local p _ _) rfl rfl, rfl⟩
      · exact ⟨.from_start (updateChannel_local p _ _) rfl rfl, rfl⟩
    · exact ⟨.of_epoll_eq rfl rfl, rfl⟩
  · split
    · exact ⟨.of_epoll_eq rfl rfl, rfl⟩
    · exact ⟨.of_epoll_eq rfl rfl, rfl⟩

theorem onRead_local {hasOnData : Bool} {script : List ReadResult} {exit : ReadExit}
    (h : onRead p hasOnData io script = some (io', exit)) :
    Local p io io' ∧ io'.channel.writebuf = io.channel.writebuf := by
  induction script generalizing io with
  | nil => simp [onRead] at h
  | cons r rs ih =>
    obtain ⟨hlocal, hbuf⟩ := onReadIter_local p hasOnData io r
    rw [onRead] at h
    split at h <;> rename_i heq <;> rw [heq] at hlocal hbuf
    · rw [Option.some.injEq, Prod.mk.injEq] at h
      exact h.1 ▸ ⟨hlocal, hbuf⟩
    · obtain ⟨hrest, hbuf'⟩ := ih h
      exact ⟨hlocal.trans hrest, hbuf'.trans hbuf⟩

/-- The end of the stream is read before `errno` is `EAGAIN` after another answer. -/
def ReadsEof (errno : Errno) : List ReadResult → Prop
  | [] => False
  | r :: rs => r.len = 0 ∨ r.errno errno ≠ EAGAIN ∧ ReadsEof (r.errno errno) rs

theorem onReadIter_of_ne_zero (p : Ptr) (hasOnData : Bool) (io : ChannelCall) {r : ReadResult}
    (hlen : r.len ≠ 0) (he : r.errno io.errno ≠ EAGAIN) :
    (onReadIter p hasOnData io r).1.errno = r.errno io.errno ∧
      (onReadIter p hasOnData io r).2 = none := by
  simp only [onReadIter]
  simp [hlen, he]

/-- Then `onRead` returns through `onClose`. -/
theorem onRead_closing {hasOnData : Bool} {script : List ReadResult} {exit : ReadExit}
    (heof : ReadsEof io.errno script) (h : onRead p hasOnData io script = some (io', exit)) :
    exit = .closing := by
  induction script generalizing io with
  | nil => exact heof.elim
  | cons r rs ih =>
    rw [onRead] at h
    by_cases hlen : r.len = 0
    · have hiter : (onReadIter p hasOnData io r).2 = some .closing := by
        simp only [onReadIter]
        simp [hlen]
      split at h <;> rename_i heq <;> rw [heq] at hiter
      · rw [Option.some.injEq, Prod.mk.injEq] at h
        exact h.2.symm.trans (Option.some.inj hiter)
      · cases hiter
    · obtain ⟨he, hrest⟩ := heof.resolve_left hlen
      obtain ⟨herrno, hnone⟩ := onReadIter_of_ne_zero p hasOnData io hlen he
      split at h <;> rename_i heq <;> rw [heq] at herrno hnone
      · cases hnone
      · exact ih (herrno ▸ hrest) h

end TcpEndpoint

/-- The descriptor table (which channel has a number open), the channels and the epoll set. -/
structure Endpoint where
  fds : Fd → Option Ptr
  heap : Ptr → Option Channel
  epoll : EPoll

namespace Endpoint

/-- Before any connection. -/
def empty : Endpoint := ⟨fun _ => none, fun _ => none, fun _ => none⟩

/-- A call on the channel `c` of this endpoint, on a thread with this `errno`. -/
def call (e : Endpoint) (c : Channel) (errno : Errno) : ChannelCall := ⟨c, e.epoll, errno, []⟩

/-- What a call on the channel at `p` left. -/
def store (e : Endpoint) (p : Ptr) (io : ChannelCall) : Endpoint :=
  { e with heap := Function.update e.heap p (some io.channel), epoll := io.epoll }

/-- `new Channel(fd)` on the descriptor that the kernel returned, followed by `setEvent` and
    `EPoll::addChannel`. -/
def addChannel (e : Endpoint) (p : Ptr) (fd : Fd) (events : EventMask) : Endpoint :=
  let c := (Channel.new fd).setEvent events
  { fds := Function.update e.fds fd (some p)
    heap := Function.update e.heap p (some c)
    epoll := e.epoll.addChannel p c }

/-- `TcpEndpoint::onClose(Channel*)`: `delChannel` and `Channel::close`. -/
def onClose (e : Endpoint) (p : Ptr) (c : Channel) : Endpoint :=
  { fds := Function.update e.fds c.fd none
    heap := Function.update e.heap p (some (c.setConnected false))
    epoll := e.epoll.delChannel c }

/-- `send` on the channel at `p`. -/
def send (e : Endpoint) (p : Ptr) (msg : List UInt8) : Endpoint :=
  match e.heap p with
  | some c => e.store p (TcpEndpoint.send p (e.call c 0) msg)
  | none => e

/-- The sends that a callback makes. -/
def sendAll (e : Endpoint) : List (Ptr × List UInt8) → Endpoint
  | [] => e
  | (p, msg) :: rest => (e.send p msg).sendAll rest

/-- `c` is the channel at `p`, and its descriptor is open. -/
def Open (e : Endpoint) (p : Ptr) (c : Channel) : Prop :=
  e.heap p = some c ∧ e.fds c.fd = some p

/-- Epoll has an entry with the pointer `p`. -/
def Registered (e : Endpoint) (p : Ptr) : Prop := ∃ fd m, e.epoll fd = some ⟨m, p⟩

/-- The descriptor number of the channel at `p` is not in use by another channel. -/
def Unshared (e : Endpoint) (p : Ptr) : Prop :=
  ∀ c q, e.heap p = some c → e.fds c.fd = some q → q = p

/-- Every open descriptor belongs to the channel that the descriptor table names and is registered
    with its pointer, and nothing else is registered. -/
structure Wired (e : Endpoint) : Prop where
  owner : ∀ fd p, e.fds fd = some p → ∃ c, e.heap p = some c ∧ c.fd = fd
  registered : ∀ fd p, e.fds fd = some p → ∃ m, e.epoll fd = some ⟨m, p⟩
  unregistered : ∀ fd, e.fds fd = none → e.epoll fd = none

variable {e : Endpoint} {p q : Ptr} {c c' : Channel} {fd : Fd} {io : ChannelCall} {errno : Errno}

@[simp] theorem store_heap_self (e : Endpoint) (p : Ptr) (io : ChannelCall) :
    (e.store p io).heap p = some io.channel := Function.update_self _ _ _

theorem store_heap_of_ne (h : q ≠ p) : (e.store p io).heap q = e.heap q :=
  Function.update_of_ne h _ _

theorem Open.unshared (hp : e.Open p c) : e.Unshared p := by
  intro c' q hc' hq
  obtain rfl : c = c' := Option.some.inj (hp.1.symm.trans hc')
  exact (Option.some.inj (hp.2.symm.trans hq)).symm

theorem addChannel_epoll (e : Endpoint) (p : Ptr) (fd : Fd) (events : EventMask) :
    (e.addChannel p fd events).epoll = e.epoll.ctlAdd fd ⟨events, p⟩ := rfl

theorem addChannel_heap_self (e : Endpoint) (p : Ptr) (fd : Fd) (events : EventMask) :
    (e.addChannel p fd events).heap p = some ((Channel.new fd).setEvent events) :=
  Function.update_self _ _ _

theorem addChannel_heap_of_ne {events : EventMask} (h : q ≠ p) :
    (e.addChannel p fd events).heap q = e.heap q := Function.update_of_ne h _ _

theorem addChannel_fds_self (e : Endpoint) (p : Ptr) (fd : Fd) (events : EventMask) :
    (e.addChannel p fd events).fds fd = some p := Function.update_self _ _ _

theorem addChannel_fds_of_ne {events : EventMask} {fd' : Fd} (h : fd' ≠ fd) :
    (e.addChannel p fd events).fds fd' = e.fds fd' := Function.update_of_ne h _ _

theorem onClose_heap_self (e : Endpoint) (p : Ptr) (c : Channel) :
    (e.onClose p c).heap p = some (c.setConnected false) := Function.update_self _ _ _

theorem onClose_heap_of_ne (h : q ≠ p) : (e.onClose p c).heap q = e.heap q :=
  Function.update_of_ne h _ _

theorem onClose_fds_self (e : Endpoint) (p : Ptr) (c : Channel) :
    (e.onClose p c).fds c.fd = none := Function.update_self _ _ _

theorem onClose_fds_of_ne (h : fd ≠ c.fd) : (e.onClose p c).fds fd = e.fds fd :=
  Function.update_of_ne h _ _

theorem onClose_epoll_self (e : Endpoint) (p : Ptr) (c : Channel) :
    (e.onClose p c).epoll c.fd = none := Function.update_self _ _ _

theorem onClose_epoll_of_ne (h : fd ≠ c.fd) : (e.onClose p c).epoll fd = e.epoll fd :=
  Function.update_of_ne h _ _

/-! ## The invariant -/

theorem wired_empty : empty.Wired :=
  ⟨by simp [empty], by simp [empty], fun _ _ => rfl⟩

theorem Wired.epoll_of_open (h : e.Wired) (hp : e.Open p c) : ∃ m, e.epoll c.fd = some ⟨m, p⟩ :=
  h.registered _ _ hp.2

/-- What is registered is open. -/
theorem Wired.open_of_registered (h : e.Wired) (hr : e.Registered p) : ∃ c, e.Open p c := by
  obtain ⟨fd, m, hep⟩ := hr
  cases hfd : e.fds fd with
  | none => rw [h.unregistered fd hfd] at hep; cases hep
  | some q =>
    obtain ⟨m', hep'⟩ := h.registered fd q hfd
    obtain rfl : q = p := by
      rw [hep, Option.some.injEq, Registration.mk.injEq] at hep'
      exact hep'.2.symm
    obtain ⟨c, hc, rfl⟩ := h.owner fd q hfd
    exact ⟨c, hc, hfd⟩

theorem Wired.addChannel {events : EventMask} (h : e.Wired) (hp : e.heap p = none)
    (hfd : e.fds fd = none) : (e.addChannel p fd events).Wired := by
  -- the new object owns no descriptor yet
  have hne : ∀ fd' q, e.fds fd' = some q → q ≠ p := by
    rintro fd' q hq rfl
    obtain ⟨c, hc, -⟩ := h.owner fd' q hq
    rw [hp] at hc
    cases hc
  have hself := addChannel_fds_self e p fd events
  refine ⟨fun fd' q hq => ?_, fun fd' q hq => ?_, fun fd' hq => ?_⟩ <;>
    by_cases heq : fd' = fd
  · obtain rfl : p = q := Option.some.inj (hself.symm.trans (heq ▸ hq))
    exact ⟨_, addChannel_heap_self _ _ _ _, heq.symm⟩
  · rw [addChannel_fds_of_ne heq] at hq
    rw [addChannel_heap_of_ne (hne fd' q hq)]
    exact h.owner fd' q hq
  · obtain rfl : p = q := Option.some.inj (hself.symm.trans (heq ▸ hq))
    exact ⟨events, by rw [heq, addChannel_epoll, EPoll.ctlAdd_self (h.unregistered fd hfd)]⟩
  · rw [addChannel_fds_of_ne heq] at hq
    rw [addChannel_epoll, EPoll.ctlAdd_of_ne heq]
    exact h.registered fd' q hq
  · rw [heq, hself] at hq
    cases hq
  · rw [addChannel_fds_of_ne heq] at hq
    rw [addChannel_epoll, EPoll.ctlAdd_of_ne heq]
    exact h.unregistered fd' hq

theorem Wired.onClose (h : e.Wired) (hp : e.Open p c) : (e.onClose p c).Wired := by
  have hself := onClose_fds_self e p c
  refine ⟨fun fd q hq => ?_, fun fd q hq => ?_, fun fd hq => ?_⟩ <;>
    by_cases heq : fd = c.fd
  · rw [heq, hself] at hq
    cases hq
  · rw [onClose_fds_of_ne heq] at hq
    obtain ⟨c', hc', rfl⟩ := h.owner fd q hq
    have hne : q ≠ p := by
      rintro rfl
      exact heq (congrArg _ (Option.some.inj (hc'.symm.trans hp.1)))
    exact ⟨c', (onClose_heap_of_ne hne).trans hc', rfl⟩
  · rw [heq, hself] at hq
    cases hq
  · rw [onClose_fds_of_ne heq] at hq
    rw [onClose_epoll_of_ne heq]
    exact h.registered fd q hq
  · rw [heq, onClose_epoll_self]
  · rw [onClose_fds_of_ne heq] at hq
    rw [onClose_epoll_of_ne heq]
    exact h.unregistered fd hq

/-- A call on a channel keeps the invariant, unless it changes epoll while the number of the
    channel's closed descriptor is in use by another channel. -/
theorem Wired.store (h : e.Wired) (hp : e.heap p = some c)
    (hfree : e.Unshared p ∨ io.epoll = e.epoll)
    (hlocal : ChannelCall.Local p (e.call c errno) io) : (e.store p io).Wired := by
  refine ⟨?_, ?_, ?_⟩
  · intro fd q hq
    obtain ⟨c', hc', rfl⟩ := h.owner fd q hq
    by_cases heq : q = p
    · subst heq
      obtain rfl : c' = c := Option.some.inj (hc'.symm.trans hp)
      exact ⟨_, store_heap_self _ _ _, hlocal.fd_eq⟩
    · exact ⟨c', (store_heap_of_ne heq).trans hc', rfl⟩
  · intro fd q hq
    by_cases heq : fd = c.fd
    · subst heq
      obtain ⟨m, hm⟩ := h.registered c.fd q hq
      rcases hfree with hfree | hsame
      · -- the entry may get the pointer `p`, and no other channel owns the number
        obtain rfl : q = p := hfree c q hp hq
        exact hlocal.entry.elim (fun hsame => ⟨m, hsame.trans hm⟩) id
      · exact ⟨m, (congrFun hsame c.fd).trans hm⟩
    · obtain ⟨m, hm⟩ := h.registered fd q hq
      exact ⟨m, (hlocal.other fd heq).trans hm⟩
  · intro fd hq
    by_cases heq : fd = c.fd
    · subst heq
      exact hlocal.absent (h.unregistered _ hq)
    · exact (hlocal.other fd heq).trans (h.unregistered fd hq)

theorem Wired.send {msg : List UInt8} (h : e.Wired) (hfree : e.Unshared p) :
    (e.send p msg).Wired := by
  simp only [Endpoint.send]
  split
  · rename_i c hc
    exact h.store hc (.inl hfree) (TcpEndpoint.write_local p (e.call c 0) msg)
  · exact h

@[simp] theorem send_fds (e : Endpoint) (p : Ptr) (msg : List UInt8) :
    (e.send p msg).fds = e.fds := by
  simp only [Endpoint.send]
  split <;> rfl

end Endpoint

end Codechiev
