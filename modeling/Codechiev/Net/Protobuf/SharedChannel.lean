import Codechiev.Net.Protobuf.Rpc

/-!
# Calls from several threads on one channel

Worker threads run `CallMethod` or `Callback` on one channel while the loop thread runs `onWrite`
on it. Each call is two steps: `AppendInt32`, which takes no lock, and `send`, which appends the
message under the endpoint's mutex. Each iteration of `onWrite` holds the mutex and is four steps
here, between any two of which a header can be appended. A header stands in front of its own
message when no other message is still to come, and when it is not appended between the size test
that finds an empty buffer and the `readall` that follows (`wholeFrames_of_careful`).
-/

namespace Codechiev

namespace TcpEndpoint

/-- The statement `len = ::write(...)` of an iteration. -/
def callWrite (io : ChannelCall) (r : WriteResult) : ChannelCall :=
  { io with
    errno := r.errno io.errno
    sent := io.sent ++ io.channel.writebuf.region io.channel.writebuf.reader r.len.toNat }

/-- The branches on `len`: `read(len)`, or `readall()` and the return. -/
def consume (p : Ptr) (io : ChannelCall) (len : ℤ) : ChannelCall :=
  let wbuf := io.channel.writebuf
  if len ≠ 0 then { io with channel := { io.channel with writebuf := wbuf.read len } }
  else
    updateChannel p
      { io with channel := { io.channel.writeEvent with writebuf := wbuf.readall } } EPOLLIN

/-- The `EAGAIN` test at the end of an iteration. -/
def rearm (p : Ptr) (io : ChannelCall) : ChannelCall :=
  if io.errno = EAGAIN then
    let io :=
      if io.channel.writebuf.readable ≠ 0 then updateChannel p io (EPOLLIN ||| EPOLLOUT)
      else updateChannel p io EPOLLIN
    { io with epoll := io.epoll.setChannel p io.channel, channel := io.channel.writeEvent }
  else io

/-- The parts of an iteration, run without a step of another thread in between. -/
theorem onWriteIter_eq_parts (p : Ptr) (io : ChannelCall) (r : WriteResult) :
    (onWriteIter p io r).1 =
      if r.len ≠ 0 then rearm p (consume p (callWrite io r) r.len)
      else consume p (callWrite io r) r.len := by
  simp only [onWriteIter, consume, rearm, callWrite]
  by_cases hlen : r.len = 0
  · simp only [hlen, ne_eq, not_true_eq_false, if_false, if_true]
  · by_cases he : r.errno io.errno = EAGAIN
    · simp only [hlen, he, ne_eq, not_false_eq_true, if_true]
    · simp only [hlen, he, ne_eq, not_false_eq_true, if_true, if_false]

@[simp] theorem rearm_writebuf (p : Ptr) (io : ChannelCall) :
    (rearm p io).channel.writebuf = io.channel.writebuf := by
  simp only [rearm]
  split
  · split <;> rfl
  · rfl

@[simp] theorem consume_sent (p : Ptr) (io : ChannelCall) (len : ℤ) :
    (consume p io len).sent = io.sent := by
  simp only [consume]
  split <;> rfl

@[simp] theorem rearm_sent (p : Ptr) (io : ChannelCall) : (rearm p io).sent = io.sent := by
  simp only [rearm]
  split
  · split <;> rfl
  · rfl

theorem consume_of_pos (p : Ptr) (io : ChannelCall) {n : ℕ} (h : n ≠ 0) :
    (consume p io n).channel.writebuf = io.channel.writebuf.read n := by
  simp only [consume]
  rw [if_pos (by omega)]

theorem consume_zero (p : Ptr) (io : ChannelCall) :
    (consume p io 0).channel.writebuf = .fresh _ := by
  simp only [consume]
  rw [if_neg (by omega)]
  rfl

@[simp] theorem send_sent (p : Ptr) (io : ChannelCall) (msg : List UInt8) :
    (send p io msg).sent = io.sent := by
  simp only [send, write]
  split <;> rfl

end TcpEndpoint

/-- Where the loop thread is in an iteration of `onWrite`, and the value it has computed last. -/
inductive IterPc where
  | idle
  | sized (readable : ℤ)
  | written (len : ℕ)
  | consumed
  deriving DecidableEq

/-- A channel, the loop thread's place, the calls whose header is appended and whose message is
    still to come, and the messages of the calls that have finished. -/
structure SharedChannel (τ : Type*) where
  io : ChannelCall
  loop : IterPc
  pending : List (τ × List UInt8)
  finished : List (List UInt8)

/-- A step of the worker that is named, or of the loop thread. -/
inductive CallStep (τ : Type*) where
  | header (t : τ) (m : List UInt8)
  | body (t : τ) (m : List UInt8)
  | size (errno : Errno)
  | write (n : ℕ)
  | consume
  | rearm

namespace CallStep

variable {τ : Type*}

/-- The bytes that the step appends to the write buffer. -/
def appended : CallStep τ → List UInt8
  | header _ m => lengthHeader.write m.length
  | body _ m => m
  | size _ | write _ | consume | rearm => []

/-- The message of the call that the step starts. -/
def started : CallStep τ → List (List UInt8)
  | header _ m => [m]
  | body _ _ | size _ | write _ | consume | rearm => []

end CallStep

namespace SharedChannel

open scoped List

variable {τ : Type*}

/-- The steps. A worker makes one call at a time, `body` and `size` wait for the mutex, and every
    `::write` succeeds. Messages hold no zero byte, and what is appended has room. -/
inductive Step (p : Ptr) : SharedChannel τ → CallStep τ → SharedChannel τ → Prop where
  | header {s : SharedChannel τ} {t : τ} {m : List UInt8} (hidle : t ∉ s.pending.map Prod.fst)
      (hnul : 0 ∉ m) (hroom : 4 ≤ s.io.channel.writebuf.writable) :
      Step p s (.header t m)
        { s with
          io := { s.io with channel := TcpLengthCoder.AppendInt32 s.io.channel m.length }
          pending := (t, m) :: s.pending }
  | body {s : SharedChannel τ} {t : τ} {m : List UInt8} {l₁ l₂ : List (τ × List UInt8)}
      (hfree : s.loop = .idle) (hpending : s.pending = l₁ ++ (t, m) :: l₂) (hnul : 0 ∉ m)
      (hroom : (m.length : ℤ) ≤ s.io.channel.writebuf.writable) :
      Step p s (.body t m)
        { s with
          io := TcpEndpoint.send p s.io m
          pending := l₁ ++ l₂
          finished := s.finished ++ [m] }
  | size {s : SharedChannel τ} {errno : Errno} (hfree : s.loop = .idle) :
      Step p s (.size errno)
        { s with
          io := { s.io with errno := errno }
          loop := .sized (TcpEndpoint.writeRequest s.io.channel) }
  | write {s : SharedChannel τ} {r : ℤ} {n : ℕ} (hpc : s.loop = .sized r)
      (hans : (WriteResult.count n).Answers r) :
      Step p s (.write n)
        { s with io := TcpEndpoint.callWrite s.io (.count n), loop := .written n }
  | consume {s : SharedChannel τ} {n : ℕ} (hpc : s.loop = .written n) :
      Step p s .consume
        { s with
          io := TcpEndpoint.consume p s.io n
          loop := if n = 0 then .idle else .consumed }
  | rearm {s : SharedChannel τ} (hpc : s.loop = .consumed) :
      Step p s .rearm { s with io := TcpEndpoint.rearm p s.io, loop := .idle }

/-- The two steps of a call, one right after the other, are the call. -/
theorem run_of_steps {p : Ptr} {s s₁ s₂ : SharedChannel τ} {t : τ} {call : PbRpcChannel.Call}
    (hheader : Step p s (.header t call.serialized) s₁)
    (hbody : Step p s₁ (.body t call.serialized) s₂) : s₂.io = call.run p s.io := by
  rw [call.run_eq]
  cases hheader
  cases hbody
  rfl

/-- The runs on a channel with an empty write buffer. -/
def sharedRuns (τ : Type*) (p : Ptr) : LabelledSystem (SharedChannel τ) (CallStep τ) where
  init s := s.io.channel.writebuf.WF ∧ s.io.channel.writebuf.content = [] ∧ s.io.sent = [] ∧
    s.loop = .idle ∧ s.pending = [] ∧ s.finished = []
  step := Step p

/-- When no call is under way, the bytes sent followed by the bytes queued are whole frames, one
    for each call. -/
def WholeFrames (s : SharedChannel τ) : Prop :=
  s.pending = [] → s.loop = .idle → ∃ ms : List (List UInt8), ms.Perm s.finished ∧
    s.io.sent ++ s.io.channel.writebuf.content = (ms.map lengthHeader.frame).flatten

/-- A header is appended when no other call has a message still to come, and not in an iteration
    that found the buffer empty and has yet to clear it. -/
def Careful (s : SharedChannel τ) : CallStep τ → Prop
  | .header _ _ => (∀ x ∈ s.pending, x.2 = []) ∧ s.loop ≠ .sized 0 ∧ s.loop ≠ .written 0
  | _ => True

/-! ## The stream -/

/-- The bytes sent, followed by those that are still to be sent. -/
def wire (s : SharedChannel τ) : List UInt8 :=
  match s.loop with
  | .written n => s.io.sent ++ s.io.channel.writebuf.content.drop n
  | .idle | .sized _ | .consumed => s.io.sent ++ s.io.channel.writebuf.content

/-- The messages still to come. -/
def outstanding (pending : List (τ × List UInt8)) : List (List UInt8) :=
  (pending.map Prod.snd).filter fun m => !m.isEmpty

/-- The messages of the calls under way that have no byte. -/
def trivialCalls (pending : List (τ × List UInt8)) : List (List UInt8) :=
  (pending.map Prod.snd).filter List.isEmpty

theorem outstanding_of_trivial {l : List (τ × List UInt8)} (h : ∀ x ∈ l, x.2 = []) :
    outstanding l = [] := by
  rw [outstanding, List.filter_eq_nil_iff]
  intro m hm
  obtain ⟨x, hx, rfl⟩ := List.mem_map.mp hm
  simp [h x hx]

theorem outstanding_append (l₁ l₂ : List (τ × List UInt8)) :
    outstanding (l₁ ++ l₂) = outstanding l₁ ++ outstanding l₂ := by
  simp [outstanding]

theorem trivialCalls_append (l₁ l₂ : List (τ × List UInt8)) :
    trivialCalls (l₁ ++ l₂) = trivialCalls l₁ ++ trivialCalls l₂ := by
  simp [trivialCalls]

@[simp] theorem outstanding_cons_nil (t : τ) (l : List (τ × List UInt8)) :
    outstanding ((t, []) :: l) = outstanding l := rfl

@[simp] theorem trivialCalls_cons_nil (t : τ) (l : List (τ × List UInt8)) :
    trivialCalls ((t, []) :: l) = [] :: trivialCalls l := rfl

theorem outstanding_cons (t : τ) {m : List UInt8} (hm : m ≠ []) (l : List (τ × List UInt8)) :
    outstanding ((t, m) :: l) = m :: outstanding l := by
  simp [outstanding, hm]

theorem trivialCalls_cons (t : τ) {m : List UInt8} (hm : m ≠ []) (l : List (τ × List UInt8)) :
    trivialCalls ((t, m) :: l) = trivialCalls l := by
  simp [trivialCalls, hm]

/-- The stream is whole frames and at most one header whose message is still to come. The frames
    are those of the finished calls and of the calls under way that have no message byte. -/
structure Framed (s : SharedChannel τ) : Prop where
  wf : s.io.channel.writebuf.WF
  sized : ∀ r, s.loop = .sized r → r ≤ s.io.channel.writebuf.readable ∧
    (r = 0 → s.io.channel.writebuf.readable = 0)
  written : ∀ n : ℕ, s.loop = .written n → (n : ℤ) ≤ s.io.channel.writebuf.readable ∧
    (n = 0 → s.io.channel.writebuf.readable = 0)
  single : (outstanding s.pending).length ≤ 1
  frames : ∃ ms : List (List UInt8), ms.Perm (s.finished ++ trivialCalls s.pending) ∧
    s.wire = (ms.map lengthHeader.frame).flatten ++
      ((outstanding s.pending).map fun m => lengthHeader.write m.length).flatten

theorem wire_of_content_nil {s : SharedChannel τ} (h : s.io.channel.writebuf.content = []) :
    s.wire = s.io.sent := by
  simp only [wire, h]
  split <;> simp

theorem wire_setIo {s : SharedChannel τ} {io : ChannelCall}
    (hwrite : io.channel.writebuf = s.io.channel.writebuf) (hsent : io.sent = s.io.sent) :
    wire { s with io := io } = s.wire := by
  simp only [wire, hwrite, hsent]

namespace Framed

variable {p : Ptr} {s s' : SharedChannel τ}

theorem start (hwf : s.io.channel.writebuf.WF) (hcontent : s.io.channel.writebuf.content = [])
    (hsent : s.io.sent = []) (hloop : s.loop = .idle) (hpending : s.pending = [])
    (hfinished : s.finished = []) : s.Framed := by
  refine ⟨hwf, by simp [hloop], by simp [hloop], by simp [hpending, outstanding], [], ?_, ?_⟩
  · simp [hpending, hfinished, trivialCalls]
  · simp [wire, hloop, hsent, hcontent, hpending, outstanding]

/-- Nothing changes that the calls and `onWrite` work on. -/
theorem setIo {io : ChannelCall} (h : s.Framed)
    (hwrite : io.channel.writebuf = s.io.channel.writebuf) (hsent : io.sent = s.io.sent) :
    Framed { s with io := io } := by
  obtain ⟨ms, hperm, hwire⟩ := h.frames
  exact ⟨hwrite ▸ h.wf, hwrite ▸ h.sized, hwrite ▸ h.written, h.single, ms, hperm,
    (wire_setIo hwrite hsent).trans hwire⟩

/-- Bytes appended to the write buffer are appended to the stream, at every place of the loop
    thread. -/
theorem wire_append (h : s.Framed) (io : ChannelCall) (pending : List (τ × List UInt8))
    (finished : List (List UInt8)) {xs : List UInt8} (hsent : io.sent = s.io.sent)
    (hcontent : io.channel.writebuf.content = s.io.channel.writebuf.content ++ xs) :
    wire ⟨io, s.loop, pending, finished⟩ = s.wire ++ xs := by
  simp only [wire]
  cases hloop : s.loop with
  | written n =>
    have hn : n ≤ s.io.channel.writebuf.content.length := by
      have hle := (h.written n hloop).1
      rw [← h.wf.content_length] at hle
      omega
    simp only [hsent, hcontent, List.drop_append_of_le_length hn, List.append_assoc]
  | idle | sized | consumed => simp only [hsent, hcontent, List.append_assoc]

theorem wire_header {t : τ} {m : List UInt8} (h : s.Framed)
    (hroom : 4 ≤ s.io.channel.writebuf.writable) :
    wire { s with
      io := { s.io with channel := TcpLengthCoder.AppendInt32 s.io.channel m.length }
      pending := (t, m) :: s.pending } = s.wire ++ lengthHeader.write m.length :=
  h.wire_append _ _ _ rfl (TcpLengthCoder.AppendInt32_writebuf m.length h.wf hroom).2.1

theorem wire_body {m : List UInt8} {pending : List (τ × List UInt8)}
    {finished : List (List UInt8)} (h : s.Framed) (hnul : 0 ∉ m)
    (hroom : (m.length : ℤ) ≤ s.io.channel.writebuf.writable) :
    wire ⟨TcpEndpoint.send p s.io m, s.loop, pending, finished⟩ = s.wire ++ m := by
  apply h.wire_append _ _ _ (TcpEndpoint.send_sent p s.io m)
  rw [TcpEndpoint.send_writebuf]
  exact Channel.content_write h.wf hnul hroom

theorem wire_size {errno : Errno} (hfree : s.loop = .idle) :
    wire { s with
      io := { s.io with errno := errno }
      loop := .sized (TcpEndpoint.writeRequest s.io.channel) } = s.wire := by
  rw [wire, wire, hfree]

/-- What `::write` takes moves to the bytes sent, and is dropped later. -/
theorem wire_write {r : ℤ} {n : ℕ} (h : s.Framed) (hpc : s.loop = .sized r)
    (hans : (WriteResult.count n).Answers r) :
    wire { s with io := TcpEndpoint.callWrite s.io (.count n), loop := .written n } = s.wire := by
  have hle : (n : ℤ) ≤ s.io.channel.writebuf.readable := hans.1.trans (h.sized r hpc).1
  have htake : s.io.channel.writebuf.region s.io.channel.writebuf.reader n =
      s.io.channel.writebuf.content.take n :=
    (FixedBuffer.region_take _ _ (by omega)).symm
  rw [wire, wire, hpc]
  simp only [TcpEndpoint.callWrite, WriteResult.len, Int.toNat_natCast, htake,
    List.append_assoc, List.take_append_drop]

theorem wire_consume {n : ℕ} (h : s.Framed) (hpc : s.loop = .written n) :
    wire { s with
      io := TcpEndpoint.consume p s.io n
      loop := if n = 0 then .idle else .consumed } = s.wire := by
  obtain ⟨hle, hzero⟩ := h.written n hpc
  by_cases hn : n = 0
  · -- no header came since the size test, so `readall` clears nothing
    subst hn
    have hbuf := TcpEndpoint.consume_zero p s.io
    have hempty : s.io.channel.writebuf.content = [] :=
      FixedBuffer.content_eq_nil (hzero rfl).le
    rw [wire, wire, hpc]
    simp only [if_true, Nat.cast_zero, hbuf, TcpEndpoint.consume_sent, FixedBuffer.content_fresh,
      hempty, List.drop_nil]
  · have hbuf := TcpEndpoint.consume_of_pos p s.io hn
    rw [wire, wire, hpc]
    simp only [hn, if_false, hbuf, TcpEndpoint.consume_sent, FixedBuffer.content_read _ hle]

theorem wire_rearm (hpc : s.loop = .consumed) :
    wire { s with io := TcpEndpoint.rearm p s.io, loop := .idle } = s.wire := by
  rw [wire, wire, hpc]
  simp

/-- What a step adds to the stream. -/
theorem wire_step {l : CallStep τ} (h : s.Framed) (hstep : Step p s l s') :
    s'.wire = s.wire ++ l.appended := by
  cases hstep with
  | header hidle hnul hroom => exact h.wire_header hroom
  | body hfree hpending hnul hroom => exact h.wire_body hnul hroom
  | size hfree => exact (wire_size hfree).trans (List.append_nil _).symm
  | write hpc hans => exact (h.wire_write hpc hans).trans (List.append_nil _).symm
  | consume hpc => exact (h.wire_consume hpc).trans (List.append_nil _).symm
  | rearm hpc => exact (wire_rearm hpc).trans (List.append_nil _).symm

/-- The call whose message ends is the only one with bytes still to come. -/
theorem others_trivial {t : τ} {m : List UInt8} {l₁ l₂ : List (τ × List UInt8)} (h : s.Framed)
    (hpending : s.pending = l₁ ++ (t, m) :: l₂) (hm : m ≠ []) :
    outstanding l₁ = [] ∧ outstanding l₂ = [] := by
  have hsingle := h.single
  rw [hpending, outstanding_append, outstanding_cons t hm] at hsingle
  simp only [List.length_append, List.length_cons] at hsingle
  exact ⟨List.eq_nil_of_length_eq_zero (by omega), List.eq_nil_of_length_eq_zero (by omega)⟩

/-- A header joins a stream in which no message is missing. -/
theorem header {t : τ} {m : List UInt8} (h : s.Framed)
    (htrivial : ∀ x ∈ s.pending, x.2 = []) (hloop : s.loop ≠ .sized 0 ∧ s.loop ≠ .written 0)
    (hroom : 4 ≤ s.io.channel.writebuf.writable) :
    Framed { s with
      io := { s.io with channel := TcpLengthCoder.AppendInt32 s.io.channel m.length }
      pending := (t, m) :: s.pending } := by
  obtain ⟨hwf, hcontent, -⟩ := TcpLengthCoder.AppendInt32_writebuf m.length h.wf hroom
  have hreadable : s.io.channel.writebuf.readable ≤
      (TcpLengthCoder.AppendInt32 s.io.channel m.length).writebuf.readable := by
    have hlen := congrArg List.length hcontent
    rw [List.length_append] at hlen
    rw [← h.wf.content_length, ← hwf.content_length]
    omega
  obtain ⟨ms, hperm, hwire⟩ := h.frames
  have hnone := outstanding_of_trivial htrivial
  rw [hnone, List.map_nil, List.flatten_nil, List.append_nil] at hwire
  have hwire' := h.wire_header (t := t) (m := m) hroom
  -- what the loop thread read before is still a lower bound of what is readable
  refine ⟨hwf, fun r hr => ?_, fun n hn => ?_, ?_, ?_⟩
  · exact ⟨(h.sized r hr).1.trans hreadable, fun h0 => absurd (h0 ▸ hr) hloop.1⟩
  · exact ⟨(h.written n hn).1.trans hreadable, fun h0 => absurd (h0 ▸ hn) hloop.2⟩
  all_goals
    rcases eq_or_ne m [] with rfl | hm
  · simp [hnone]
  · simp [outstanding_cons t hm, hnone]
  · refine ⟨ms ++ [[]], ?_, ?_⟩
    · calc ms ++ [[]]
        _ ~ (s.finished ++ trivialCalls s.pending) ++ [[]] := hperm.append_right _
        _ ~ s.finished ++ trivialCalls ((t, []) :: s.pending) := by
          rw [List.append_assoc]
          exact List.perm_append_comm.append_left _
    · rw [hwire', hwire]
      simp [hnone, HeaderCode.frame]
  · refine ⟨ms, by rwa [trivialCalls_cons t hm], ?_⟩
    rw [hwire', hwire]
    simp [outstanding_cons t hm, hnone]

/-- A message joins the stream: it has no byte, or its header is the last that was appended. -/
theorem body {t : τ} {m : List UInt8} {l₁ l₂ : List (τ × List UInt8)} (h : s.Framed)
    (hfree : s.loop = .idle) (hpending : s.pending = l₁ ++ (t, m) :: l₂) (hnul : 0 ∉ m)
    (hroom : (m.length : ℤ) ≤ s.io.channel.writebuf.writable) :
    Framed { s with
      io := TcpEndpoint.send p s.io m
      pending := l₁ ++ l₂
      finished := s.finished ++ [m] } := by
  have hwire' : wire ⟨TcpEndpoint.send p s.io m, s.loop, l₁ ++ l₂, s.finished ++ [m]⟩ =
      s.wire ++ m := h.wire_body hnul hroom
  obtain ⟨ms, hperm, hwire⟩ := h.frames
  have hsingle := h.single
  rw [hpending, outstanding_append] at hsingle hwire
  rw [hpending, trivialCalls_append] at hperm
  refine ⟨?_, fun r hr => ?_, fun n hn => ?_, ?_, ?_⟩
  · show (TcpEndpoint.send p s.io m).channel.writebuf.WF
    rw [TcpEndpoint.send_writebuf]
    exact h.wf.append _ _
  · cases hfree.symm.trans hr
  · cases hfree.symm.trans hn
  all_goals
    rw [outstanding_append]
    rcases eq_or_ne m [] with rfl | hm
  · exact hsingle
  · rw [outstanding_cons t hm] at hsingle
    simp only [List.length_append, List.length_cons] at hsingle ⊢
    omega
  · refine ⟨ms, ?_, by rw [hwire', hwire, List.append_nil]; rfl⟩
    rw [trivialCalls_append, List.append_assoc]
    exact hperm.trans (List.perm_middle.append_left _)
  · rw [outstanding_cons t hm] at hsingle hwire
    rw [trivialCalls_cons t hm] at hperm
    -- its header ends the stream
    have hnil := h.others_trivial hpending hm
    refine ⟨ms ++ [m], ?_, ?_⟩
    · rw [trivialCalls_append]
      calc ms ++ [m]
        _ ~ (s.finished ++ (trivialCalls l₁ ++ trivialCalls l₂)) ++ [m] := hperm.append_right _
        _ ~ (s.finished ++ [m]) ++ (trivialCalls l₁ ++ trivialCalls l₂) := by
          rw [List.append_assoc s.finished, List.append_assoc s.finished]
          exact List.perm_append_comm.append_left _
    · rw [hwire', hwire, hnil.1, hnil.2]
      simp [HeaderCode.frame]

/-- The size test. -/
theorem size {errno : Errno} (h : s.Framed) (hfree : s.loop = .idle) :
    Framed { s with
      io := { s.io with errno := errno }
      loop := .sized (TcpEndpoint.writeRequest s.io.channel) } := by
  obtain ⟨ms, hperm, hwire⟩ := h.frames
  refine ⟨h.wf, ?_, nofun, h.single, ms, hperm, ?_⟩
  · intro r hr
    obtain rfl : TcpEndpoint.writeRequest s.io.channel = r := by simpa using hr
    exact ⟨TcpEndpoint.writeRequest_le _, TcpEndpoint.writeRequest_eq_zero⟩
  · rw [← hwire, wire_size hfree]

/-- The call of `::write`. -/
theorem write {r : ℤ} {n : ℕ} (h : s.Framed) (hpc : s.loop = .sized r)
    (hans : (WriteResult.count n).Answers r) :
    Framed { s with io := TcpEndpoint.callWrite s.io (.count n), loop := .written n } := by
  obtain ⟨hr, hzero⟩ := h.sized r hpc
  obtain ⟨hle, hans⟩ := hans
  obtain ⟨ms, hperm, hwire⟩ := h.frames
  refine ⟨h.wf, nofun, ?_, h.single, ms, hperm, ?_⟩
  · intro k hk
    obtain rfl : n = k := by simpa using hk
    exact ⟨hle.trans hr, fun h0 => hzero (hans.mp h0)⟩
  · rw [← hwire, h.wire_write hpc ⟨hle, hans⟩]

/-- `read(len)`, or `readall()` when nothing was there to be sent. -/
theorem consume {n : ℕ} (h : s.Framed) (hpc : s.loop = .written n) :
    Framed { s with
      io := TcpEndpoint.consume p s.io n
      loop := if n = 0 then .idle else .consumed } := by
  obtain ⟨hle, -⟩ := h.written n hpc
  obtain ⟨ms, hperm, hwire⟩ := h.frames
  have hsame := (h.wire_consume (p := p) hpc).trans hwire
  by_cases hn : n = 0
  · subst hn
    refine ⟨?_, nofun, nofun, h.single, ms, hperm, hsame⟩
    exact TcpEndpoint.consume_zero p s.io ▸ FixedBuffer.wf_fresh Channel.kBufferSize_pos
  · refine ⟨?_, ?_, ?_, h.single, ms, hperm, hsame⟩
    · exact TcpEndpoint.consume_of_pos p s.io hn ▸ h.wf.read (Int.natCast_nonneg n) hle
    · simp [hn]
    · simp [hn]

theorem rearm (h : s.Framed) (hpc : s.loop = .consumed) :
    Framed { s with io := TcpEndpoint.rearm p s.io, loop := .idle } := by
  obtain ⟨ms, hperm, hwire⟩ := h.frames
  exact ⟨by simpa using h.wf, nofun, nofun, h.single, ms, hperm, (wire_rearm hpc).trans hwire⟩

theorem step {l : CallStep τ} (h : s.Framed) (hl : s.Careful l) (hstep : Step p s l s') :
    s'.Framed := by
  cases hstep with
  | header hidle hnul hroom => exact h.header hl.1 hl.2 hroom
  | body hfree hpending hnul hroom => exact h.body hfree hpending hnul hroom
  | size hfree => exact h.size hfree
  | write hpc hans => exact h.write hpc hans
  | consume hpc => exact h.consume hpc
  | rearm hpc => exact h.rearm hpc

theorem wholeFrames (h : s.Framed) : s.WholeFrames := by
  intro hpending hloop
  obtain ⟨ms, hperm, hwire⟩ := h.frames
  rw [hpending] at hperm hwire
  rw [wire, hloop] at hwire
  simp only [outstanding, trivialCalls, List.map_nil, List.filter_nil, List.append_nil,
    List.flatten_nil] at hperm hwire
  exact ⟨ms, hperm, hwire⟩

end Framed

/-- In every run of any number of workers and the loop thread on one channel in which every header
    is appended carefully, the stream is whole frames, one for each call, whenever no call is under
    way. -/
theorem wholeFrames_of_careful (τ : Type*) (p : Ptr) (s : SharedChannel τ)
    (h : ((sharedRuns τ p).under Careful).Reachable s) : s.WholeFrames := by
  have hframed : s.Framed := by
    refine h.invariant (I := Framed) ?_ ?_
    · rintro s ⟨hwf, hcontent, hsent, hloop, hpending, hfinished⟩
      exact .start hwf hcontent hsent hloop hpending hfinished
    · rintro s l s' - hs ⟨hl, hstep⟩
      exact hs.step hl hstep
  exact hframed.wholeFrames

/-- A channel on which no call was made yet. -/
def start : SharedChannel Bool := ⟨TcpEndpoint.newCall, .idle, [], []⟩

theorem start_init : (sharedRuns Bool 0).init start :=
  ⟨FixedBuffer.wf_fresh Channel.kBufferSize_pos, by decide, rfl, rfl, rfl, rfl⟩

theorem reachable_step {p : Ptr} {s s' : SharedChannel τ} {l : CallStep τ}
    (h : (sharedRuns τ p).Reachable s) (hstep : Step p s l s') :
    (sharedRuns τ p).Reachable s' := .next l h hstep

theorem careful_step {p : Ptr} {s s' : SharedChannel τ} {l : CallStep τ}
    (h : ((sharedRuns τ p).under Careful).Reachable s) (hl : s.Careful l)
    (hstep : Step p s l s') : ((sharedRuns τ p).under Careful).Reachable s' := .next l h ⟨hl, hstep⟩

/-- Two workers append their headers, then their messages: the fifth byte of the stream belongs to
    the second header. -/
theorem headers_interleave :
    ¬ ∀ (p : Ptr) (s : SharedChannel Bool), (sharedRuns Bool p).Reachable s → s.WholeFrames := by
  intro h
  have h₁ := reachable_step (l := .header false [65]) (.start start_init)
    (.header (by decide) (by decide) (by decide))
  have h₂ := reachable_step (l := .header true [66]) h₁
    (.header (by decide) (by decide) (by decide))
  have h₃ := reachable_step (l := .body false [65]) h₂
    (.body rfl (show _ = [(true, [66])] ++ (false, [65]) :: [] from rfl) (by decide) (by decide))
  have h₄ := reachable_step (l := .body true [66]) h₃
    (.body rfl (show _ = [] ++ (true, [66]) :: [] from rfl) (by decide) (by decide))
  obtain ⟨ms, hperm, hwire⟩ := h 0 _ h₄ rfl rfl
  obtain ⟨m, rest, rfl⟩ : ∃ m rest, ms = m :: rest := by
    cases ms with
    | nil => simpa using hperm.length_eq
    | cons m rest => exact ⟨m, rest, rfl⟩
  have hm : m = [65] ∨ m = [66] := by simpa [start] using hperm.subset List.mem_cons_self
  have hfifth : 0 = ((m :: rest).map lengthHeader.frame).flatten.getD 4 0 := by
    rw [← hwire]
    decide
  rcases hm with rfl | rfl
  · exact absurd hfifth (show (0 : UInt8) ≠ 65 by decide)
  · exact absurd hfifth (show (0 : UInt8) ≠ 66 by decide)

/-- Two workers make a call each, the second while the loop thread is in an iteration for the
    first, and the loop thread writes both frames. -/
theorem wholeFrames_two_calls : ∃ s : SharedChannel Bool, s.finished = [[65], [66]] ∧
    s.pending = [] ∧ s.loop = .idle ∧ s.io.sent = [0, 0, 0, 1, 65, 0, 0, 0, 1, 66] ∧
      s.WholeFrames := by
  have h₁ := careful_step (p := 0) (l := .header false [65]) (.start start_init)
    ⟨by simp [start], by decide, by decide⟩ (.header (by decide) (by decide) (by decide))
  have h₂ := careful_step (l := .body false [65]) h₁ trivial
    (.body rfl (show _ = [] ++ (false, [65]) :: [] from rfl) (by decide) (by decide))
  have h₃ := careful_step (l := .size 0) h₂ trivial (.size rfl)
  have h₄ := careful_step (l := .write 5) h₃ trivial (.write rfl (by decide))
  have h₅ := careful_step (l := .header true [66]) h₄ ⟨nofun, by decide, by decide⟩
    (.header List.not_mem_nil (by decide) (by decide))
  have h₆ := careful_step (l := .consume) h₅ trivial (.consume rfl)
  have h₇ := careful_step (l := .rearm) h₆ trivial (.rearm rfl)
  have h₈ := careful_step (l := .body true [66]) h₇ trivial
    (.body rfl (show _ = [] ++ (true, [66]) :: [] from rfl) (by decide) (by decide))
  have h₉ := careful_step (l := .size 0) h₈ trivial (.size rfl)
  have h₁₀ := careful_step (l := .write 5) h₉ trivial (.write rfl (by decide))
  have h₁₁ := careful_step (l := .consume) h₁₀ trivial (.consume rfl)
  have h₁₂ := careful_step (l := .rearm) h₁₁ trivial (.rearm rfl)
  exact ⟨_, rfl, rfl, rfl, by decide, wholeFrames_of_careful Bool 0 _ h₁₂⟩

end SharedChannel

end Codechiev
