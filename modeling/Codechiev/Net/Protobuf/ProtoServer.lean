import Codechiev.Net.TcpServer
import Codechiev.Net.Protobuf.Rpc

/-!
# `net::ProtoServer`

The loop thread accepts, reads, decodes and closes; every message decoded becomes a job with the
descriptor number of its channel, and worker threads take the jobs in order. A worker looks the
number up with `getChannel` only when it runs `onMessage`, and appends the response to whatever
channel it finds. What protobuf and the service make of a message is a parameter: the serialized
response, or nothing when the method is unknown.
-/

namespace Codechiev

/-- The arguments bound in a queued `onMessage`. `origin` is the channel whose read buffer held the
    message, which the code does not record. -/
structure Job where
  msg : List UInt8
  fd : Fd
  origin : Ptr
  deriving DecidableEq

/-- A response that was appended to the write buffer of the channel at `dest`. -/
structure Response where
  dest : Ptr
  job : Job
  serialized : List UInt8

/-- Where a worker is: waiting for a job, before `getChannel`, or in `Callback` before or after
    `AppendInt32`. -/
inductive WorkerPc where
  | idle
  | taken (job : Job)
  | resolved (job : Job) (p : Ptr) (serialized : List UInt8)
  | sending (job : Job) (p : Ptr) (serialized : List UInt8)

/-- The server, its job queue and its workers, with a record of what was decoded from which
    channel, and of the responses. -/
structure ProtoServer (τ : Type*) extends TcpServer where
  queue : List Job
  workers : τ → WorkerPc
  decoded : List (Ptr × List UInt8)
  responses : List Response

/-- A step of the loop thread, or of the worker that is named. -/
inductive ServerStep (τ : Type*) where
  | accept (p : Ptr) (fd : Fd)
  | poll (p : Ptr) (events : EventMask)
  | onRead (p : Ptr) (errno : Errno) (script : List ReadResult)
  | decode (p : Ptr)
  | onWrite (p : Ptr) (errno : Errno) (script : List WriteResult)
  | close (p : Ptr)
  | erase
  | takeJob (t : τ)
  | resolve (t : τ)
  | appendHeader (t : τ)
  | send (t : τ)

namespace ProtoServer

variable {τ : Type*} (respond : List UInt8 → Option (List UInt8))

/-- One turn of the loop of `onData` that decodes a message, and `addJob`. -/
def addJob (s : ProtoServer τ) (p : Ptr) (c : Channel) (msg : List UInt8) : ProtoServer τ :=
  { s with
    toEndpoint := s.store p (s.call c 0)
    queue := s.queue ++ [⟨msg, c.fd, p⟩]
    decoded := s.decoded ++ [(p, msg)] }

section Steps

variable [DecidableEq τ]

def setWorker (s : ProtoServer τ) (t : τ) (pc : WorkerPc) : ProtoServer τ :=
  { s with workers := Function.update s.workers t pc }

/-- `onMessage` up to the call of `Callback`: the service answers, and the number is looked up. -/
def resolve (s : ProtoServer τ) (t : τ) (job : Job) : ProtoServer τ :=
  match respond job.msg, s.getChannel job.fd with
  | some serialized, some p => s.setWorker t (.resolved job p serialized)
  | _, _ => s.setWorker t .idle

/-- `Callback` up to its `send`. The worker holds a `channel_ptr`, so the lock succeeds. -/
def appendHeader (s : ProtoServer τ) (t : τ) (job : Job) (p : Ptr) (c : Channel)
    (serialized : List UInt8) : ProtoServer τ :=
  { s with
    toEndpoint := s.store p (s.call (TcpLengthCoder.AppendInt32 c serialized.length) 0)
    responses := s.responses ++ [⟨p, job, serialized⟩]
    workers := Function.update s.workers t (.sending job p serialized) }

/-- The steps. The loop thread works on channels in the vector that `poll` filled, in any order,
    and erases the channel it closed before it goes on. -/
inductive Step : ProtoServer τ → ServerStep τ → ProtoServer τ → Prop where
  | accept {s : ProtoServer τ} {p : Ptr} {fd : Fd} (hloop : s.closing = none)
      (hp : s.heap p = none) (hfd : s.fds fd = none) :
      Step s (.accept p fd) { s with toTcpServer := s.toTcpServer.onConnect p fd }
  | poll {s : ProtoServer τ} {p : Ptr} {c : Channel} {events : EventMask}
      (hloop : s.closing = none) (hreg : s.Registered p) (hc : s.heap p = some c) :
      Step s (.poll p events) { s with toTcpServer := s.toTcpServer.poll p c events }
  | onRead {s : ProtoServer τ} {p : Ptr} {c : Channel} {errno : Errno} {script : List ReadResult}
      {io : ChannelCall} {exit : ReadExit} (hloop : s.closing = none) (hp : p ∈ s.polled)
      (hc : s.heap p = some c)
      (hrun : TcpEndpoint.onRead p true (s.call c errno) script = some (io, exit)) :
      Step s (.onRead p errno script) { s with toEndpoint := s.store p io }
  | decode {s : ProtoServer τ} {p : Ptr} {c c' : Channel} {msg : List UInt8}
      (hloop : s.closing = none) (hp : p ∈ s.polled) (hc : s.heap p = some c)
      (hmsg : TcpLengthCoder.decode c [] = some (true, c', msg)) :
      Step s (.decode p) (s.addJob p c' msg)
  | onWrite {s : ProtoServer τ} {p : Ptr} {c : Channel} {errno : Errno}
      {script : List WriteResult} {io : ChannelCall} {ret : Bool} (hloop : s.closing = none)
      (hp : p ∈ s.polled) (hc : s.heap p = some c)
      (hrun : TcpEndpoint.onWrite p (s.call c errno) script = some (io, ret)) :
      Step s (.onWrite p errno script) { s with toEndpoint := s.store p io }
  | close {s : ProtoServer τ} {p : Ptr} {c : Channel} (hloop : s.closing = none)
      (hp : p ∈ s.polled) (hc : s.heap p = some c) :
      Step s (.close p) { s with toTcpServer := s.toTcpServer.onClose p c }
  | erase {s : ProtoServer τ} {fd : Fd} (hloop : s.closing = some fd) :
      Step s .erase { s with toTcpServer := s.toTcpServer.erase fd }
  | takeJob {s : ProtoServer τ} {t : τ} {job : Job} {rest : List Job}
      (hidle : s.workers t = .idle) (hqueue : s.queue = job :: rest) :
      Step s (.takeJob t) { s.setWorker t (.taken job) with queue := rest }
  | resolve {s : ProtoServer τ} {t : τ} {job : Job} (hpc : s.workers t = .taken job) :
      Step s (.resolve t) (s.resolve respond t job)
  | appendHeader {s : ProtoServer τ} {t : τ} {job : Job} {p : Ptr} {serialized : List UInt8}
      {c : Channel} (hpc : s.workers t = .resolved job p serialized) (hc : s.heap p = some c) :
      Step s (.appendHeader t) (s.appendHeader t job p c serialized)
  | send {s : ProtoServer τ} {t : τ} {job : Job} {p : Ptr} {serialized : List UInt8}
      (hpc : s.workers t = .sending job p serialized) :
      Step s (.send t) { s.setWorker t .idle with toEndpoint := s.toEndpoint.send p serialized }

/-- The runs of a server on which nobody is connected at first. -/
def protoRuns (τ : Type*) [DecidableEq τ] (respond : List UInt8 → Option (List UInt8)) :
    LabelledSystem (ProtoServer τ) (ServerStep τ) where
  init s := s = ⟨.empty, [], fun _ => .idle, [], []⟩
  step := Step respond

end Steps

/-- Every response was appended to the channel whose read buffer held the request, and is the
    answer to that request. -/
def Isolated (s : ProtoServer τ) : Prop :=
  ∀ r ∈ s.responses, r.job.origin = r.dest ∧ (r.dest, r.job.msg) ∈ s.decoded ∧
    respond r.job.msg = some r.serialized

/-- A job that waits in the queue, or with a worker for its `getChannel`. -/
def Unresolved (s : ProtoServer τ) (job : Job) : Prop :=
  job ∈ s.queue ∨ ∃ t, s.workers t = .taken job

/-- The kernel does not give a new connection a number that a job with an answer carries, and no
    worker sends on a closed channel whose number another connection has. -/
def Careful (s : ProtoServer τ) : ServerStep τ → Prop
  | .accept _ fd => ∀ job, s.Unresolved job → job.fd = fd → respond job.msg = none
  | .send t => ∀ job p serialized, s.workers t = .sending job p serialized →
      ¬ s.Steals p serialized
  | _ => True

/-- The server's invariant: a job with an answer carries a number under which `channels_` has its
    own channel or none, and a worker that found a channel found the one that asked. -/
structure Attributed (s : ProtoServer τ) : Prop where
  accounted : s.Accounted
  unresolved : ∀ job, s.Unresolved job → (job.origin, job.msg) ∈ s.decoded ∧
    (respond job.msg ≠ none → ∀ p, s.channels job.fd = some p → p = job.origin)
  resolved : ∀ t job p serialized, s.workers t = .resolved job p serialized →
    p = job.origin ∧ respond job.msg = some serialized ∧ (p, job.msg) ∈ s.decoded
  isolated : s.Isolated respond

namespace Attributed

variable {respond} {s s' : ProtoServer τ} {p : Ptr} {c : Channel} {fd : Fd} {t : τ} {job : Job}

theorem empty : Attributed respond (⟨.empty, [], fun _ => .idle, [], []⟩ : ProtoServer τ) :=
  ⟨TcpServer.Accounted.empty, by simp [Unresolved], nofun, nofun⟩

/-- The server below may change, as long as `channels_` gains no entry for the number of a job that
    has an answer. -/
theorem replace {srv : TcpServer} (h : s.Attributed respond) (hacc : srv.Accounted)
    (hchannels : ∀ job, s.Unresolved job → respond job.msg ≠ none →
      ∀ p, srv.channels job.fd = some p → s.channels job.fd = some p) :
    Attributed respond { s with toTcpServer := srv } := by
  refine ⟨hacc, fun job hjob => ?_, h.resolved, h.isolated⟩
  obtain ⟨hdecoded, hown⟩ := h.unresolved job hjob
  exact ⟨hdecoded, fun hr p hp => hown hr p (hchannels job hjob hr p hp)⟩

theorem accept (h : s.Attributed respond) (hloop : s.closing = none) (hp : s.heap p = none)
    (hfd : s.fds fd = none)
    (hfresh : ∀ job, s.Unresolved job → job.fd = fd → respond job.msg = none) :
    Attributed respond { s with toTcpServer := s.toTcpServer.onConnect p fd } := by
  refine h.replace (h.accounted.onConnect hloop hp hfd) fun job hjob hr q hq => ?_
  -- a job with the new connection's number has no answer, so what it finds does not matter
  have hne : job.fd ≠ fd := fun heq => hr (hfresh job hjob heq)
  exact (Function.update_of_ne hne _ _).symm.trans hq

theorem erase (h : s.Attributed respond) (hloop : s.closing = some fd) :
    Attributed respond { s with toTcpServer := s.toTcpServer.erase fd } := by
  refine h.replace (h.accounted.erase hloop) fun job hjob hr q hq => ?_
  by_cases heq : job.fd = fd
  · rw [heq] at hq
    cases (Function.update_self _ _ _).symm.trans hq
  · exact (Function.update_of_ne heq _ _).symm.trans hq

/-- The job of a message has the number of the channel it was decoded from. -/
theorem addJob {c' : Channel} {msg : List UInt8} (h : s.Attributed respond)
    (hp : p ∈ s.polled) (hc : s.heap p = some c) (hfd : c'.fd = c.fd) :
    (s.addJob p c' msg).Attributed respond := by
  have hopen := h.accounted.open_polled hp hc
  have hlocal : ChannelCall.Local p (s.call c 0) (s.call c' 0) := .of_epoll_eq hfd rfl
  refine ⟨h.accounted.store hc (.inr rfl) hlocal, ?_, ?_, ?_⟩
  · intro job hjob
    have hold : s.Unresolved job ∨ job = ⟨msg, c'.fd, p⟩ := by
      simpa [ProtoServer.addJob, Unresolved, or_right_comm] using hjob
    rcases hold with hold | rfl
    · exact (h.unresolved job hold).imp_left (List.mem_append_left _)
    · -- the channel is open, so `channels_` has it under its number
      refine ⟨List.mem_append_right _ List.mem_cons_self, fun _ q hq => ?_⟩
      rw [hfd] at hq
      exact Option.some.inj (hq.symm.trans (h.accounted.stored c.fd p hopen.2))
  · intro t job q serialized hpc
    obtain ⟨hown, hanswer, hdecoded⟩ := h.resolved t job q serialized hpc
    exact ⟨hown, hanswer, List.mem_append_left _ hdecoded⟩
  · intro r hr
    obtain ⟨hown, hdecoded, hanswer⟩ := h.isolated r hr
    exact ⟨hown, List.mem_append_left _ hdecoded, hanswer⟩

variable [DecidableEq τ]

/-- A worker moves to a place that the invariant allows. -/
theorem setWorker {pc : WorkerPc} (h : s.Attributed respond)
    (htaken : ∀ job, pc = .taken job → s.Unresolved job)
    (hresolved : ∀ job p serialized, pc = .resolved job p serialized →
      p = job.origin ∧ respond job.msg = some serialized ∧ (p, job.msg) ∈ s.decoded) :
    (s.setWorker t pc).Attributed respond := by
  refine ⟨h.accounted, fun job hjob => h.unresolved job ?_, ?_, h.isolated⟩
  · rcases hjob with hqueue | ⟨t', ht'⟩
    · exact .inl hqueue
    · by_cases heq : t' = t
      · subst heq
        exact htaken job ((Function.update_self _ _ _).symm.trans ht')
      · exact .inr ⟨t', (Function.update_of_ne heq _ _).symm.trans ht'⟩
  · intro t' job p serialized hpc
    by_cases heq : t' = t
    · subst heq
      exact hresolved job p serialized ((Function.update_self _ _ _).symm.trans hpc)
    · exact h.resolved t' job p serialized ((Function.update_of_ne heq _ _).symm.trans hpc)

theorem takeJob {rest : List Job} (h : s.Attributed respond) (hqueue : s.queue = job :: rest) :
    Attributed respond { s.setWorker t (.taken job) with queue := rest } := by
  have hset : (s.setWorker t (.taken job)).Attributed respond := by
    refine h.setWorker (fun job' heq => ?_) nofun
    obtain rfl : job = job' := by simpa using heq
    exact .inl (hqueue ▸ List.mem_cons_self)
  refine ⟨hset.accounted, fun job' hjob => hset.unresolved job' ?_, hset.resolved, hset.isolated⟩
  refine hjob.imp_left fun hrest => ?_
  have hmem : job' ∈ s.queue := hqueue ▸ List.mem_cons_of_mem _ hrest
  exact hmem

theorem resolve (h : s.Attributed respond) (hpc : s.workers t = .taken job) :
    (s.resolve respond t job).Attributed respond := by
  obtain ⟨hdecoded, hown⟩ := h.unresolved job (.inr ⟨t, hpc⟩)
  simp only [ProtoServer.resolve]
  split
  · rename_i serialized p hanswer hchannel
    have hp := hown (by simp [hanswer]) p hchannel
    refine h.setWorker nofun fun job' q serialized' heq => ?_
    obtain ⟨rfl, rfl, rfl⟩ : job = job' ∧ p = q ∧ serialized = serialized' := by simpa using heq
    exact ⟨hp, hanswer, hp ▸ hdecoded⟩
  · exact h.setWorker nofun nofun

theorem appendHeader {serialized : List UInt8} (h : s.Attributed respond)
    (hpc : s.workers t = .resolved job p serialized) (hc : s.heap p = some c) :
    (s.appendHeader t job p c serialized).Attributed respond := by
  obtain ⟨hown, hanswer, hdecoded⟩ := h.resolved t job p serialized hpc
  have hset : (s.setWorker t (.sending job p serialized)).Attributed respond :=
    h.setWorker nofun nofun
  have hlocal : ChannelCall.Local p (s.call c 0)
      (s.call (TcpLengthCoder.AppendInt32 c serialized.length) 0) := .of_epoll_eq rfl rfl
  refine ⟨h.accounted.store hc (.inr rfl) hlocal, hset.unresolved, hset.resolved, fun r hr => ?_⟩
  rcases List.mem_append.mp hr with hr | hr
  · exact h.isolated r hr
  · obtain rfl : r = ⟨p, job, serialized⟩ := by simpa using hr
    exact ⟨hown.symm, hdecoded, hanswer⟩

theorem send {serialized : List UInt8} (h : s.Attributed respond)
    (hsteal : ¬ s.Steals p serialized) :
    Attributed respond
      { s.setWorker t .idle with toEndpoint := s.toEndpoint.send p serialized } := by
  have hset : (s.setWorker t .idle).Attributed respond := h.setWorker nofun nofun
  exact hset.replace (h.accounted.send hsteal) fun _ _ _ _ hq => hq

theorem step {l : ServerStep τ} (h : s.Attributed respond) (hl : s.Careful respond l)
    (hstep : Step respond s l s') : s'.Attributed respond := by
  cases hstep with
  | accept hloop hp hfd => exact h.accept hloop hp hfd hl
  | poll hloop hreg hc => exact h.replace (h.accounted.poll hreg hc) fun _ _ _ _ hq => hq
  | onRead hloop hp hc hrun =>
    have hopen := h.accounted.open_polled hp hc
    have hlocal := (TcpEndpoint.onRead_local hrun).1
    exact h.replace (h.accounted.store hc (.inl hopen.unshared) hlocal) fun _ _ _ _ hq => hq
  | decode hloop hp hc hmsg => exact h.addJob hp hc (TcpLengthCoder.decode_fd hmsg)
  | onWrite hloop hp hc hrun =>
    have hopen := h.accounted.open_polled hp hc
    have hlocal := TcpEndpoint.onWrite_local hrun
    exact h.replace (h.accounted.store hc (.inl hopen.unshared) hlocal) fun _ _ _ _ hq => hq
  | close hloop hp hc => exact h.replace (h.accounted.onClose hp hc) fun _ _ _ _ hq => hq
  | erase hloop => exact h.erase hloop
  | takeJob hidle hqueue => exact h.takeJob hqueue
  | resolve hpc => exact h.resolve hpc
  | appendHeader hpc hc => exact h.appendHeader hpc hc
  | send hpc => exact h.send (hl _ _ _ hpc)

end Attributed

/-- In every run of the loop thread and any number of workers in which no new connection gets the
    number of a job that is still to be answered, and no response is sent on a closed channel whose
    number another connection has, every response goes to the channel that asked. -/
theorem isolated_of_careful (τ : Type*) [DecidableEq τ]
    (respond : List UInt8 → Option (List UInt8)) (s : ProtoServer τ)
    (h : ((protoRuns τ respond).under (Careful respond)).Reachable s) : s.Isolated respond := by
  have hattr : s.Attributed respond := by
    refine h.invariant (I := Attributed respond) ?_ ?_
    · rintro s rfl
      exact Attributed.empty
    · rintro s l s' - hs ⟨hl, hstep⟩
      exact hs.step hl hstep
  exact hattr.isolated

variable [DecidableEq τ] {respond} {s s' : ProtoServer τ} {l : ServerStep τ}

theorem careful_step (h : ((protoRuns τ respond).under (Careful respond)).Reachable s)
    (hl : s.Careful respond l) (hstep : Step respond s l s') :
    ((protoRuns τ respond).under (Careful respond)).Reachable s' := .next l h ⟨hl, hstep⟩

theorem reachable_step (h : (protoRuns τ respond).Reachable s) (hstep : Step respond s l s') :
    (protoRuns τ respond).Reachable s' := .next l h hstep

theorem Step.resolved {t : τ} {job : Job} {p : Ptr} {serialized : List UInt8}
    (hpc : s.workers t = .taken job) (hanswer : respond job.msg = some serialized)
    (hchannel : s.channels job.fd = some p) :
    Step respond s (.resolve t) (s.setWorker t (.resolved job p serialized)) := by
  have heq : s.resolve respond t job = s.setWorker t (.resolved job p serialized) := by
    rw [ProtoServer.resolve, hanswer, TcpServer.getChannel, hchannel]
  exact heq ▸ .resolve hpc

/-- A server that answers every request with its own bytes, after the request 65 has been decoded
    on its only connection. -/
theorem request_reachable : ∃ (s : ProtoServer Unit) (c : Channel),
    ((protoRuns Unit some).under (Careful some)).Reachable s ∧ s.queue = [⟨[65], c.fd, 0⟩] ∧
      s.closing = none ∧ s.Registered 0 ∧ s.Open 0 c ∧ s.heap 1 = none ∧
      s.workers () = .idle := by
  have haccept : ((protoRuns Unit some).under (Careful some)).Reachable _ :=
    careful_step (l := .accept 0 5) (.start rfl) (by simp [Careful, Unresolved])
      (.accept rfl rfl rfl)
  have hpoll := careful_step (l := .poll 0 EPOLLIN) haccept trivial
    (.poll rfl ⟨5, EPOLLIN, rfl⟩ rfl)
  have hread := careful_step (l := .onRead 0 0 [.data [0, 0, 0, 1, 65], .error EAGAIN])
    hpoll trivial (.onRead rfl List.mem_cons_self rfl rfl)
  have hdecode := careful_step (l := .decode 0) hread trivial
    (.decode rfl List.mem_cons_self rfl rfl)
  exact ⟨_, _, hdecode, rfl, rfl, ⟨5, EPOLLIN, rfl⟩, ⟨rfl, rfl⟩, rfl, rfl⟩

/-- The connection is closed, the next one gets its number, and then the worker runs the job: the
    response goes to the new connection. -/
theorem response_crosses_connections :
    ¬ ∀ (respond : List UInt8 → Option (List UInt8)) (s : ProtoServer Unit),
      (protoRuns Unit respond).Reachable s → s.Isolated respond := by
  intro h
  obtain ⟨s, c, hreach, hqueue, hloop, hregistered, hopen, hfresh, hidle⟩ := request_reachable
  have hhup := reachable_step (l := .poll 0 EPOLLRDHUP) hreach.of_under
    (.poll hloop hregistered hopen.1)
  have hclose := reachable_step (l := .close 0) hhup
    (.close hloop List.mem_cons_self (Endpoint.store_heap_self _ _ _))
  have herase := reachable_step (l := .erase) hclose (.erase rfl)
  have haccept := reachable_step (l := .accept 1 c.fd) herase
    (.accept rfl hfresh (Endpoint.onClose_fds_self _ _ _))
  have htake := reachable_step (l := .takeJob ()) haccept (.takeJob hidle hqueue)
  have hresolve := reachable_step (l := .resolve ()) htake
    (.resolved rfl rfl (Function.update_self _ _ _))
  have happend := reachable_step (l := .appendHeader ()) hresolve
    (.appendHeader rfl (Endpoint.addChannel_heap_self _ _ _ _))
  have hown := (h some _ happend ⟨1, ⟨[65], c.fd, 0⟩, [65]⟩
    (List.mem_append_right _ List.mem_cons_self)).1
  exact absurd hown (show (0 : Ptr) ≠ 1 by decide)

/-- Two connections have sent a request each, and both are decoded. -/
theorem requests_reachable : ∃ (s : ProtoServer Bool) (c₀ c₁ : Channel),
    ((protoRuns Bool some).under (Careful some)).Reachable s ∧
      s.queue = [⟨[65], 5, 0⟩, ⟨[66], 6, 1⟩] ∧ s.heap 0 = some c₀ ∧ s.heap 1 = some c₁ ∧
      s.workers false = .idle ∧ s.workers true = .idle ∧ s.channels 5 = some 0 ∧
      s.channels 6 = some 1 := by
  have hfirst : ((protoRuns Bool some).under (Careful some)).Reachable _ :=
    careful_step (l := .accept 0 5) (.start rfl) (by simp [Careful, Unresolved])
      (.accept rfl rfl rfl)
  have hsecond := careful_step (l := .accept 1 6) hfirst (by simp [Careful, Unresolved])
    (.accept rfl rfl rfl)
  have hpoll := careful_step (l := .poll 0 EPOLLIN) hsecond trivial
    (.poll rfl ⟨5, EPOLLIN, rfl⟩ rfl)
  have hpolls := careful_step (l := .poll 1 EPOLLIN) hpoll trivial
    (.poll rfl ⟨6, EPOLLIN, rfl⟩ rfl)
  have hread := careful_step (l := .onRead 0 0 [.data [0, 0, 0, 1, 65], .error EAGAIN])
    hpolls trivial (.onRead rfl (List.mem_cons_of_mem _ List.mem_cons_self) rfl rfl)
  have hreads := careful_step (l := .onRead 1 0 [.data [0, 0, 0, 1, 66], .error EAGAIN])
    hread trivial (.onRead rfl List.mem_cons_self rfl rfl)
  have hdecode := careful_step (l := .decode 0) hreads trivial
    (.decode rfl (List.mem_cons_of_mem _ List.mem_cons_self) rfl rfl)
  have hdecodes := careful_step (l := .decode 1) hdecode trivial
    (.decode rfl List.mem_cons_self rfl rfl)
  exact ⟨_, _, _, hdecodes, rfl, rfl, rfl, rfl, rfl, rfl, rfl⟩

/-- Two workers answer them, the second request first. -/
theorem isolated_two_connections : ∃ s : ProtoServer Bool,
    (∃ r ∈ s.responses, r.dest = 0) ∧ (∃ r ∈ s.responses, r.dest = 1) ∧ s.Isolated some := by
  obtain ⟨s, c₀, c₁, hreach, hqueue, hheap₀, hheap₁, hidle₀, hidle₁, hchannel₀, hchannel₁⟩ :=
    requests_reachable
  have htake := careful_step (l := .takeJob false) hreach trivial (.takeJob hidle₀ hqueue)
  have htakes := careful_step (l := .takeJob true) htake trivial (.takeJob hidle₁ rfl)
  have hresolve := careful_step (l := .resolve true) htakes trivial (.resolved rfl rfl hchannel₁)
  have hresolves := careful_step (l := .resolve false) hresolve trivial
    (.resolved rfl rfl hchannel₀)
  have happend := careful_step (l := .appendHeader true) hresolves trivial
    (.appendHeader rfl hheap₁)
  have hother : ∀ io, (s.store 1 io).heap 0 = some c₀ :=
    fun _ => (Endpoint.store_heap_of_ne (by decide)).trans hheap₀
  have happends := careful_step (l := .appendHeader false) happend trivial
    (.appendHeader rfl (hother _))
  exact ⟨_, ⟨_, List.mem_append_right _ List.mem_cons_self, rfl⟩,
    ⟨_, List.mem_append_left _ (List.mem_append_right _ List.mem_cons_self), rfl⟩,
    isolated_of_careful Bool some _ happends⟩

end ProtoServer

end Codechiev
