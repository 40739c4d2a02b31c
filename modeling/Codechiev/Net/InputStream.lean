import Codechiev.Library.Transition
import Codechiev.Net.Endpoint
import Mathlib.Data.List.DropRight
import Mathlib.Data.List.TakeDrop

/-!
# The input stream of one channel

What `onRead` does to the bytes that `::read` returns. It appends them to the read buffer until
`errno` is `EAGAIN`, and only then calls `onData_`. The value that `append` returns is dropped, so
a burst larger than the room at entry loses its tail (`onRead_keeps_iff`). The answer zero ends
the call on the spot: what the same call appended before it is never presented (`presented_iff`).
-/

namespace Codechiev

namespace ReadResult

/-- The answers on which `onRead` returns: zero, and any other one when `errno` is `EAGAIN` after
    it. -/
def Ends (old : Errno) (r : ReadResult) : Prop := r.len = 0 ∨ r.errno old = EAGAIN

instance (old : Errno) (r : ReadResult) : Decidable (r.Ends old) :=
  inferInstanceAs (Decidable (_ ∨ _))

theorem bytes_length (r : ReadResult) : r.bytes.length = r.len.toNat := by
  cases r with
  | data bytes => rfl
  | error e => rfl

end ReadResult

namespace TcpEndpoint

/-- The bytes that `::read` returns during a call of `onRead`, from the `errno` at entry. -/
def received (errno : Errno) : List ReadResult → List UInt8
  | [] => []
  | r :: rs => r.bytes ++ if r.Ends errno then [] else received (r.errno errno) rs

/-- The bytes that the call appends to the read buffer `b`. -/
def appended (b : ChannelBuffer) (errno : Errno) : List ReadResult → List UInt8
  | [] => []
  | r :: rs =>
    r.bytes.take (b.taken r.len) ++
      if r.Ends errno then [] else appended (b.append r.bytes r.len).1 (r.errno errno) rs

/-- How the call returns on the answer `r`, with `b` the read buffer after it. -/
def exitOn (hasOnData : Bool) (b : ChannelBuffer) (r : ReadResult) : ReadExit :=
  if r.len = 0 then .closing
  else if hasOnData ∧ b.readable ≠ 0 then .delivering
  else .waiting

/-! ## One iteration -/

variable {p : Ptr} {hasOnData : Bool} {io io' : ChannelCall} {exit : ReadExit}

theorem onReadIter_errno (p : Ptr) (hasOnData : Bool) (io : ChannelCall) (r : ReadResult) :
    (onReadIter p hasOnData io r).1.errno = r.errno io.errno := by
  simp only [onReadIter]
  split
  · split
    · split <;> rfl
    · rfl
  · split <;> rfl

/-- Zero appends nothing, as if the branch were taken. -/
theorem onReadIter_readbuf (p : Ptr) (hasOnData : Bool) (io : ChannelCall) (r : ReadResult) :
    (onReadIter p hasOnData io r).1.channel.readbuf =
      (io.channel.readbuf.append r.bytes r.len).1 := by
  simp only [onReadIter]
  split
  · split
    · split <;> rfl
    · rfl
  · rename_i hzero
    have hnone : (io.channel.readbuf.append r.bytes r.len).1 = io.channel.readbuf := by
      rw [not_not.mp hzero, FixedBuffer.append, if_pos le_rfl]
    rw [hnone]
    split <;> rfl

theorem onReadIter_return (p : Ptr) (hasOnData : Bool) (io : ChannelCall) (r : ReadResult) :
    (onReadIter p hasOnData io r).2 =
      if r.Ends io.errno then
        some (exitOn hasOnData (io.channel.readbuf.append r.bytes r.len).1 r)
      else none := by
  simp only [onReadIter, ReadResult.Ends, exitOn]
  by_cases hzero : r.len = 0
  · simp [hzero]
  · by_cases he : r.errno io.errno = EAGAIN
    · simp only [ne_eq, hzero, not_false_eq_true, if_true, he, or_true, if_false]
      split
      · rename_i hdata
        exact congrArg some (if_pos hdata).symm
      · rename_i hdata
        exact congrArg some (if_neg hdata).symm
    · simp [hzero, he]

/-- The first answer either ends the call or leaves the rest of the script to the loop. -/
theorem onRead_cons (p : Ptr) (hasOnData : Bool) (io : ChannelCall) (r : ReadResult)
    (rs : List ReadResult) :
    onRead p hasOnData io (r :: rs) =
      if r.Ends io.errno then
        some ((onReadIter p hasOnData io r).1,
          exitOn hasOnData (io.channel.readbuf.append r.bytes r.len).1 r)
      else onRead p hasOnData (onReadIter p hasOnData io r).1 rs := by
  have hret := onReadIter_return p hasOnData io r
  rw [onRead]
  split <;> rename_i heq <;> rw [heq] at hret ⊢ <;> split <;> simp_all

/-! ## A whole call -/

/-- A script that ends in `EAGAIN` lets the call return. -/
theorem onRead_returns (p : Ptr) (hasOnData : Bool) (io : ChannelCall) {script : List ReadResult}
    (hend : script.getLast? = some (.error EAGAIN)) :
    ∃ io' exit, onRead p hasOnData io script = some (io', exit) := by
  induction script generalizing io with
  | nil => cases hend
  | cons r rs ih =>
    by_cases hends : r.Ends io.errno
    · exact ⟨_, _, by rw [onRead_cons, if_pos hends]⟩
    · rw [onRead_cons, if_neg hends]
      apply ih
      cases rs with
      | nil =>
        -- the last answer is the one that ends the call
        obtain rfl : r = .error EAGAIN := Option.some.inj hend
        exact absurd (.inr rfl) hends
      | cons r' rs => rwa [List.getLast?_cons_cons] at hend

theorem content_onRead {script : List ReadResult} (hc : io.channel.readbuf.WF)
    (hrun : onRead p hasOnData io script = some (io', exit)) :
    io'.channel.readbuf.WF ∧
      io'.channel.readbuf.content =
        io.channel.readbuf.content ++ appended io.channel.readbuf io.errno script := by
  induction script generalizing io with
  | nil => cases hrun
  | cons r rs ih =>
    have hbuf := onReadIter_readbuf p hasOnData io r
    have hlen : r.len ≤ r.bytes.length := by
      rw [ReadResult.bytes_length]
      exact Int.self_le_toNat r.len
    have hstep := FixedBuffer.content_append hc r.bytes hlen
    rw [onRead_cons] at hrun
    rw [appended]
    by_cases hends : r.Ends io.errno
    · rw [if_pos hends, Option.some.injEq, Prod.mk.injEq] at hrun
      rw [if_pos hends, List.append_nil, ← hrun.1, hbuf]
      exact ⟨hc.append _ _, hstep⟩
    · rw [if_neg hends] at hrun
      obtain ⟨hwf, hrest⟩ := ih (hbuf ▸ hc.append _ _) hrun
      rw [hbuf, onReadIter_errno] at hrest
      rw [if_neg hends, hrest, hstep, List.append_assoc]
      exact ⟨hwf, rfl⟩

/-- What does not fit into the room at entry is dropped. -/
theorem appended_eq_take {b : ChannelBuffer} {errno : Errno} {script : List ReadResult} :
    appended b errno script = (received errno script).take b.writable.toNat := by
  induction script generalizing b errno with
  | nil => simp [appended, received]
  | cons r rs ih =>
    have hlen := r.bytes_length
    have hroom : (b.append r.bytes r.len).1.writable.toNat =
        b.writable.toNat - r.bytes.length := by
      rw [FixedBuffer.writable_append, hlen]
      simp only [FixedBuffer.taken]
      omega
    have hfirst : r.bytes.take (b.taken r.len) = r.bytes.take b.writable.toNat := by
      rw [FixedBuffer.taken, ← hlen, Nat.min_comm, ← List.take_take, List.take_length]
    rw [appended, received, List.take_append, hfirst]
    split
    · rw [List.take_nil]
    · rw [ih, hroom]

/-- How the call returned: through `onClose` if it read the end of the stream, and otherwise with
    `onData_` called if it is set and there is something to present. -/
theorem exit_onRead {script : List ReadResult}
    (hrun : onRead p hasOnData io script = some (io', exit)) :
    exit = .closing ∨
      exit = .delivering ∧ hasOnData = true ∧ io'.channel.readbuf.readable ≠ 0 ∨
      exit = .waiting ∧ ¬ (hasOnData = true ∧ io'.channel.readbuf.readable ≠ 0) := by
  induction script generalizing io with
  | nil => cases hrun
  | cons r rs ih =>
    rw [onRead_cons] at hrun
    split at hrun
    · rw [Option.some.injEq, Prod.mk.injEq] at hrun
      obtain ⟨rfl, rfl⟩ := hrun
      rw [onReadIter_readbuf]
      simp only [exitOn]
      split
      · exact .inl rfl
      · split
        · rename_i hdata
          exact .inr (.inl ⟨rfl, hdata⟩)
        · rename_i hdata
          exact .inr (.inr ⟨rfl, hdata⟩)
    · exact ih hrun

/-- A call that returns through `onClose` has read the end of the stream. -/
theorem readsEof_of_closing {script : List ReadResult}
    (hrun : onRead p hasOnData io script = some (io', .closing)) : ReadsEof io.errno script := by
  induction script generalizing io with
  | nil => cases hrun
  | cons r rs ih =>
    rw [onRead_cons] at hrun
    by_cases hzero : r.len = 0
    · exact .inl hzero
    · by_cases he : r.errno io.errno = EAGAIN
      · rw [if_pos (.inr he), Option.some.injEq, Prod.mk.injEq, exitOn, if_neg hzero] at hrun
        exfalso
        have hexit := hrun.2
        split at hexit <;> cases hexit
      · rw [if_neg (by simp [ReadResult.Ends, hzero, he])] at hrun
        have hrest := ih hrun
        rw [onReadIter_errno] at hrest
        exact .inr ⟨he, hrest⟩

/-- On every script of answers that ends in `EAGAIN`, the call returns, and unless it returns
    through `onClose`, the read buffer then holds its content at entry followed by all that
    `::read` returned if and only if that fits into the room at entry. -/
theorem onRead_keeps_iff (p : Ptr) (hasOnData : Bool) (c : Channel) (ep : EPoll) (errno : Errno)
    (script : List ReadResult) (hc : c.readbuf.WF)
    (hend : script.getLast? = some (.error EAGAIN)) :
    ∃ io' exit, onRead p hasOnData ⟨c, ep, errno, []⟩ script = some (io', exit) ∧
      (exit ≠ .closing →
        (io'.channel.readbuf.content = c.readbuf.content ++ received errno script ↔
          ((received errno script).length : ℤ) ≤ c.readbuf.writable)) := by
  obtain ⟨io', exit, hrun⟩ := onRead_returns p hasOnData ⟨c, ep, errno, []⟩ hend
  have hroom := hc.writable_nonneg
  refine ⟨io', exit, hrun, fun _ => ?_⟩
  rw [(content_onRead hc hrun).2, appended_eq_take]
  show _ ++ (received errno script).take c.readbuf.writable.toNat = _ ↔ _
  rw [List.append_cancel_left_eq, List.take_eq_self_iff]
  omega

/-- A read buffer that has no room left. -/
def fullChannel : Channel :=
  let c := Channel.new 5
  { c with readbuf := (c.readbuf.append (List.replicate 8191 65) 8191).1 }

theorem fullChannel_wf : fullChannel.readbuf.WF :=
  (FixedBuffer.wf_fresh Channel.kBufferSize_pos).append _ _

theorem fullChannel_writable : fullChannel.readbuf.writable = 0 := by
  show ((Channel.new 5).readbuf.append (List.replicate 8191 65) 8191).1.writable = 0
  rw [FixedBuffer.writable_append]
  rfl

/-- The byte that arrives is appended nowhere. -/
theorem onRead_drops_byte :
    ¬ ∀ (p : Ptr) (hasOnData : Bool) (c : Channel) (ep : EPoll) (errno : Errno)
      (script : List ReadResult) (io' : ChannelCall) (exit : ReadExit), c.readbuf.WF →
      script.getLast? = some (.error EAGAIN) →
      onRead p hasOnData ⟨c, ep, errno, []⟩ script = some (io', exit) → exit ≠ .closing →
      io'.channel.readbuf.content = c.readbuf.content ++ received errno script := by
  intro h
  have hend : [ReadResult.data [65], .error EAGAIN].getLast? = some (.error EAGAIN) := rfl
  obtain ⟨io', exit, hrun⟩ := onRead_returns 0 true ⟨fullChannel, fun _ => none, 0, []⟩ hend
  have hcontent := (content_onRead fullChannel_wf hrun).2
  have hnone : appended fullChannel.readbuf 0 [.data [65], .error EAGAIN] = [] := by
    rw [appended_eq_take, fullChannel_writable, Int.toNat_zero, List.take_zero]
  have hexit : exit ≠ .closing := by
    rintro rfl
    simpa [ReadsEof, ReadResult.len, ReadResult.errno, EAGAIN] using readsEof_of_closing hrun
  have hkeeps := h 0 true fullChannel _ 0 _ io' exit fullChannel_wf rfl hrun hexit
  rw [hkeeps, hnone] at hcontent
  exact absurd (List.append_cancel_left hcontent) (by decide)

theorem onRead_keeps_one :
    ∃ io' exit, onRead 0 true ⟨Channel.new 5, fun _ => none, 0, []⟩
        [.data [65], .error EAGAIN] = some (io', exit) ∧
      (exit ≠ .closing →
        (io'.channel.readbuf.content =
            (Channel.new 5).readbuf.content ++ received 0 [.data [65], .error EAGAIN] ↔
          ((received 0 [.data [65], .error EAGAIN]).length : ℤ) ≤
            (Channel.new 5).readbuf.writable)) :=
  onRead_keeps_iff 0 true (.new 5) (fun _ => none) 0 [.data [65], .error EAGAIN]
    (FixedBuffer.wf_fresh Channel.kBufferSize_pos) rfl

end TcpEndpoint

/-! ## The calls of `onRead` on one channel -/

/-- A call of `onRead`: what it finds in epoll and in `errno`, what `::read` answers, and what
    `onData_` leaves of the channel, if it is called. -/
structure ReadCall where
  epoll : EPoll
  errno : Errno
  script : List ReadResult
  left : Channel

/-- A channel with `onData_` set, the bytes appended to its read buffer that no call of `onData_`
    was presented with, and whether `onRead` has closed it. -/
structure InputChannel where
  channel : Channel
  unseen : List UInt8
  closed : Bool

namespace InputChannel

open TcpEndpoint

/-- A call of `onRead` that left `io` returns. The read buffer is a queue, so what `onData_` is
    presented with are the bytes appended last. -/
def onRead (s : InputChannel) (call : ReadCall) (io : ChannelCall) (exit : ReadExit) :
    InputChannel :=
  let unseen := s.unseen ++ appended s.channel.readbuf call.errno call.script
  match exit with
  | .closing => ⟨io.channel, unseen, true⟩
  | .delivering => ⟨call.left, unseen.rdrop io.channel.readbuf.content.length, false⟩
  | .waiting | .failed => ⟨io.channel, unseen, false⟩

/-- The runs of `onRead` on a new channel. -/
def inputRuns (p : Ptr) (fd : Fd) : LabelledSystem InputChannel ReadCall where
  init s := s = ⟨.new fd, [], false⟩
  step s call s' := s.closed = false ∧ call.left.readbuf.WF ∧ ∃ io exit,
    TcpEndpoint.onRead p true ⟨s.channel, call.epoll, call.errno, []⟩ call.script =
        some (io, exit) ∧
      s' = s.onRead call io exit

variable {p : Ptr} {fd : Fd} {s s' : InputChannel} {call : ReadCall}

/-- As long as the channel is open, everything appended was presented. -/
theorem open_step (hwf : s.channel.readbuf.WF) (hseen : s.unseen = [])
    (hstep : (inputRuns p fd).step s call s') (hopen : s'.closed = false) :
    s'.channel.readbuf.WF ∧ s'.unseen = [] := by
  obtain ⟨-, hleft, io, exit, hrun, rfl⟩ := hstep
  obtain ⟨hio, hcontent⟩ := content_onRead hwf hrun
  have hcontent : io.channel.readbuf.content =
      s.channel.readbuf.content ++ appended s.channel.readbuf call.errno call.script := hcontent
  rcases exit_onRead hrun with rfl | ⟨rfl, -, -⟩ | ⟨rfl, hempty⟩
  · cases hopen
  · -- the buffer holds what the call appended, so `onData_` sees all of it
    refine ⟨hleft, ?_⟩
    show (s.unseen ++ _).rdrop io.channel.readbuf.content.length = []
    rw [hseen, List.nil_append, hcontent, List.length_append]
    rw [List.rdrop, List.take_eq_nil_iff]
    left
    omega
  · -- `onData_` is not called only because the buffer is empty
    refine ⟨hio, ?_⟩
    have hnil : io.channel.readbuf.content = [] := by
      apply FixedBuffer.content_eq_nil
      simp only [true_and, not_not] at hempty
      exact hempty.le
    rw [hnil] at hcontent
    show s.unseen ++ _ = []
    rw [hseen, List.nil_append]
    exact (List.append_eq_nil_iff.mp hcontent.symm).2

theorem reachable_open (h : (inputRuns p fd).Reachable s) (hopen : s.closed = false) :
    s.channel.readbuf.WF ∧ s.unseen = [] := by
  induction h with
  | start hs =>
    obtain rfl := hs
    exact ⟨FixedBuffer.wf_fresh Channel.kBufferSize_pos, rfl⟩
  | next call _ hstep ih =>
    obtain ⟨hwf, hseen⟩ := ih hstep.1
    exact open_step hwf hseen hstep hopen

/-- In every run of `onRead` calls on a channel: when a call closes the channel, every byte that
    was appended has been presented to `onData_` if and only if this last call received none before
    the end of the stream, or had no room for any. -/
theorem presented_iff (p : Ptr) (fd : Fd) (s s' : InputChannel) (call : ReadCall)
    (h : (inputRuns p fd).Reachable s) (hstep : (inputRuns p fd).step s call s')
    (hclosed : s'.closed = true) :
    s'.unseen = [] ↔
      received call.errno call.script = [] ∨ s.channel.readbuf.writable = 0 := by
  obtain ⟨hwf, hseen⟩ := reachable_open h hstep.1
  obtain ⟨-, -, io, exit, hrun, rfl⟩ := hstep
  have hroom := hwf.writable_nonneg
  rcases exit_onRead hrun with rfl | ⟨rfl, -, -⟩ | ⟨rfl, -⟩
  · show s.unseen ++ _ = [] ↔ _
    rw [hseen, List.nil_append, appended_eq_take, List.take_eq_nil_iff, or_comm]
    apply or_congr_right
    omega
  · cases hclosed
  · cases hclosed

/-- The peer sends a byte and closes: the byte and the end of the stream are read in one call. -/
def sendThenClose : ReadCall := ⟨fun _ => none, 0, [.data [65], .data []], .new 5⟩

theorem sendThenClose_step :
    ∃ s', (inputRuns 0 5).step ⟨.new 5, [], false⟩ sendThenClose s' ∧ s'.closed = true ∧
      s'.unseen = [65] :=
  ⟨_, ⟨rfl, FixedBuffer.wf_fresh Channel.kBufferSize_pos, _, _, rfl, rfl⟩, rfl, rfl⟩

/-- The byte is never presented. -/
theorem onRead_closes_unseen :
    ¬ ∀ s : InputChannel, (inputRuns 0 5).Reachable s → s.closed = true → s.unseen = [] := by
  intro h
  obtain ⟨s', hstep, hclosed, hunseen⟩ := sendThenClose_step
  have hreach := LabelledSystem.Reachable.next sendThenClose (.start rfl) hstep
  rw [h s' hreach hclosed] at hunseen
  cases hunseen

theorem presented_sendThenClose :
    ∃ s', (inputRuns 0 5).step ⟨.new 5, [], false⟩ sendThenClose s' ∧
      (s'.unseen = [] ↔ received 0 [.data [65], .data []] = [] ∨
        (Channel.new 5).readbuf.writable = 0) := by
  obtain ⟨s', hstep, hclosed, -⟩ := sendThenClose_step
  exact ⟨s', hstep,
    presented_iff 0 5 ⟨.new 5, [], false⟩ s' sendThenClose (.start rfl) hstep hclosed⟩

end InputChannel

end Codechiev
