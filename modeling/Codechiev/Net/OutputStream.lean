import Codechiev.Library.Transition
import Codechiev.Net.TcpEndpoint

/-!
# The output stream of one channel

What `onWrite` does to the bytes queued on a channel. A positive answer of `::write` moves that
many bytes from the buffer to the socket. The answer -1 passes the same test `if(len)` and moves
`reader_` back by one, so each failed call puts a byte back in front of the stream
(`total_onWrite`). The indices are reset only on the exit taken after the answer zero, and a
stale `EAGAIN` in `errno` ends the call before that exit (`reclaimed_iff`).
-/

namespace Codechiev

namespace TcpEndpoint

/-- Every result that the call consumes answers the request it was given. -/
def Answered (p : Ptr) (io : ChannelCall) : List WriteResult → Prop
  | [] => True
  | r :: rs =>
    r.Answers (writeRequest io.channel) ∧
      (¬ r.Ends io.errno → Answered p (onWriteIter p io r).1 rs)

instance decidableAnswered (p : Ptr) :
    (io : ChannelCall) → (script : List WriteResult) → Decidable (Answered p io script)
  | _, [] => isTrue trivial
  | io, r :: rs =>
    have := decidableAnswered p (onWriteIter p io r).1 rs
    inferInstanceAs (Decidable (_ ∧ (_ → _)))

/-- The number of failed `::write` calls that `onWrite` consumes, from the `errno` at entry. -/
def errorsConsumed (errno : Errno) : List WriteResult → ℕ
  | [] => 0
  | r :: rs =>
    (if r.len < 0 then 1 else 0) +
      if r.Ends errno then 0 else errorsConsumed (r.errno errno) rs

/-- Bytes accepted by the socket, followed by the bytes still readable. -/
def stream (io : ChannelCall) : List UInt8 := io.sent ++ io.channel.writebuf.content

theorem stream_length (io : ChannelCall) :
    (stream io).length = io.sent.length + io.channel.writebuf.readable.toNat := by
  rw [stream, List.length_append, FixedBuffer.content_length]

/-! ## One iteration -/

variable {p : Ptr} {io io' : ChannelCall}

theorem onWriteIter_readable {r : WriteResult} (hio : 0 ≤ io.channel.writebuf.readable)
    (hr : r.Answers (writeRequest io.channel)) :
    0 ≤ (onWriteIter p io r).1.channel.writebuf.readable := by
  by_cases h : r.len = 0
  · rw [(onWriteIter_of_zero p io h).1]; simp [FixedBuffer.fresh, FixedBuffer.readable]
  · rw [(onWriteIter_of_ne_zero p io h).1, FixedBuffer.readable_read]
    have hle := writeRequest_le io.channel
    cases r with
    | count n => have := hr.1; simp only [WriteResult.len]; omega
    | error e => simp only [WriteResult.len]; omega

/-- A successful answer keeps the stream. -/
theorem stream_onWriteIter_count {n : ℕ}
    (hr : (WriteResult.count n).Answers (writeRequest io.channel)) :
    stream (onWriteIter p io (.count n)).1 = stream io := by
  have hle : (n : ℤ) ≤ io.channel.writebuf.readable := hr.1.trans (writeRequest_le _)
  by_cases h : n = 0
  · have h0 : (WriteResult.count n).len = 0 := by simp [WriteResult.len, h]
    obtain ⟨hbuf, hsent⟩ := onWriteIter_of_zero p io h0
    have hempty : io.channel.writebuf.readable = 0 := writeRequest_eq_zero (hr.2.mp h)
    rw [stream, stream, hbuf, hsent, FixedBuffer.content_fresh,
      FixedBuffer.content_eq_nil hempty.le]
  · have h0 : (WriteResult.count n).len ≠ 0 := by simpa [WriteResult.len] using h
    obtain ⟨hbuf, hsent⟩ := onWriteIter_of_ne_zero p io h0
    have hsplit : io.channel.writebuf.content.take n =
        io.channel.writebuf.region io.channel.writebuf.reader n :=
      FixedBuffer.region_take _ _ (by omega)
    rw [stream, hbuf, hsent]
    simp only [WriteResult.len, Int.toNat_natCast]
    rw [FixedBuffer.content_read _ hle, List.append_assoc, ← hsplit, List.take_append_drop]
    rfl

/-- A failed answer makes the stream one byte longer. -/
theorem length_onWriteIter_error {e : Errno} (hio : 0 ≤ io.channel.writebuf.readable) :
    (stream (onWriteIter p io (.error e)).1).length = (stream io).length + 1 := by
  have h0 : (WriteResult.error e).len ≠ 0 := by simp [WriteResult.len]
  obtain ⟨hbuf, hsent⟩ := onWriteIter_of_ne_zero p io h0
  rw [stream_length, stream_length, hbuf, hsent, FixedBuffer.readable_read]
  simp only [WriteResult.len, List.length_append, FixedBuffer.region_length]
  omega

theorem length_onWriteIter {r : WriteResult} (hio : 0 ≤ io.channel.writebuf.readable)
    (hr : r.Answers (writeRequest io.channel)) :
    (stream (onWriteIter p io r).1).length =
      (stream io).length + if r.len < 0 then 1 else 0 := by
  cases r with
  | count n =>
    have hlen : ¬ (WriteResult.count n).len < 0 := by simp [WriteResult.len]
    rw [stream_onWriteIter_count hr, if_neg hlen, Nat.add_zero]
  | error e =>
    have hlen : (WriteResult.error e).len < 0 := by simp [WriteResult.len]
    rw [length_onWriteIter_error hio, if_pos hlen]

/-! ## A whole call -/

/-- Every failed `::write` that the call consumes adds one byte to the stream. -/
theorem length_onWrite {script : List WriteResult} {ret : Bool}
    (hio : 0 ≤ io.channel.writebuf.readable) (hans : Answered p io script)
    (hrun : onWrite p io script = some (io', ret)) :
    (stream io').length = (stream io).length + errorsConsumed io.errno script := by
  -- one answer for each iteration, and the call ends with the first that ends it
  induction script generalizing io with
  | nil => simp [onWrite] at hrun
  | cons r rs ih =>
    have hlen := length_onWriteIter (p := p) hio hans.1
    rw [onWrite_cons] at hrun
    rw [errorsConsumed]
    by_cases hends : r.Ends io.errno
    · rw [if_pos hends, Option.some.injEq, Prod.mk.injEq] at hrun
      rw [if_pos hends, ← hrun.1, hlen, Nat.add_zero]
    · rw [if_neg hends] at hrun
      have hrest := ih (onWriteIter_readable hio hans.1) (hans.2 hends) hrun
      rw [onWriteIter_errno] at hrest
      rw [if_neg hends, hrest, hlen, Nat.add_assoc]

/-- Without a failed `::write` the stream is kept. -/
theorem stream_onWrite {script : List WriteResult} {ret : Bool}
    (hio : 0 ≤ io.channel.writebuf.readable) (hans : Answered p io script)
    (hrun : onWrite p io script = some (io', ret)) (herr : errorsConsumed io.errno script = 0) :
    stream io' = stream io := by
  induction script generalizing io with
  | nil => simp [onWrite] at hrun
  | cons r rs ih =>
    rw [errorsConsumed, Nat.add_eq_zero_iff] at herr
    obtain ⟨hlen, hrest⟩ := herr
    cases r with
    | error e => simp [WriteResult.len] at hlen
    | count n =>
      have hstep := stream_onWriteIter_count (p := p) hans.1
      rw [onWrite_cons] at hrun
      by_cases hends : (WriteResult.count n).Ends io.errno
      · rw [if_pos hends, Option.some.injEq, Prod.mk.injEq] at hrun
        rw [← hrun.1, hstep]
      · rw [if_neg hends] at hrun hrest
        rw [← hstep]
        exact ih (onWriteIter_readable hio hans.1) (hans.2 hends) hrun
          ((onWriteIter_errno p io (.count n)).symm ▸ hrest)

/-- What `onWrite` does to the output stream of a channel, for any content of the write buffer,
    any `errno` at entry and any script of answers: the bytes accepted during the call, followed
    by those still readable, are the bytes that were readable at entry if and only if the call
    consumed no failed `::write`. -/
theorem onWrite_conserves_iff (p : Ptr) (c : Channel) (ep : EPoll) (errno : Errno)
    (script : List WriteResult) (io' : ChannelCall) (ret : Bool)
    (hc : 0 ≤ c.writebuf.readable) (hans : Answered p ⟨c, ep, errno, []⟩ script)
    (hrun : onWrite p ⟨c, ep, errno, []⟩ script = some (io', ret)) :
    io'.sent ++ io'.channel.writebuf.content = c.writebuf.content ↔
      errorsConsumed errno script = 0 := by
  have hentry : stream ⟨c, ep, errno, []⟩ = c.writebuf.content := rfl
  have hlen : (stream io').length = c.writebuf.content.length + errorsConsumed errno script :=
    length_onWrite hc hans hrun
  constructor
  · -- a repeated byte shows in the length already
    intro h
    rw [stream, h] at hlen
    omega
  · intro h
    exact (stream_onWrite hc hans hrun h).trans hentry

/-- A write buffer that holds two bytes. -/
def twoBytes : Channel := (Channel.new 5).write [65, 66]

/-- One byte goes out, then the socket is full: the byte that went out is queued again. -/
theorem onWrite_repeats_byte :
    ¬ ∀ (p : Ptr) (c : Channel) (ep : EPoll) (errno : Errno) (script : List WriteResult)
      (io' : ChannelCall) (ret : Bool), 0 ≤ c.writebuf.readable →
      Answered p ⟨c, ep, errno, []⟩ script →
      onWrite p ⟨c, ep, errno, []⟩ script = some (io', ret) →
      io'.sent ++ io'.channel.writebuf.content = c.writebuf.content := by
  intro h
  have := h 0 twoBytes (fun _ => none) 0 [.count 1, .error EAGAIN] _ _ (by decide)
    (by decide) rfl
  revert this
  decide

theorem onWrite_conserves_twoBytes :
    ∃ io' ret, onWrite 0 ⟨twoBytes, fun _ => none, EAGAIN, []⟩ [.count 1] = some (io', ret) ∧
      (io'.sent ++ io'.channel.writebuf.content = twoBytes.writebuf.content ↔
        errorsConsumed EAGAIN [.count 1] = 0) :=
  ⟨_, _, rfl, onWrite_conserves_iff 0 twoBytes (fun _ => none) EAGAIN [.count 1] _ _
    (by decide) (by decide) rfl⟩

/-! ## Rounds of `send` and `onWrite` -/

/-- A step on a long-lived channel: queue a message, or flush with `::write` calls that all
    succeed, each taking the given number of bytes, from any value of `errno`. -/
inductive OutputOp where
  | send (msg : List UInt8)
  | onWrite (errno : Errno) (counts : List ℕ)

/-- The runs of `send` and `onWrite` on a new channel. -/
def outputRuns (p : Ptr) : LabelledSystem ChannelCall OutputOp where
  init io := ∃ fd, io.channel = Channel.new fd
  step io op io' :=
    match op with
    | .send msg => io' = send p io msg
    | .onWrite errno counts =>
      Answered p { io with errno := errno } (counts.map .count) ∧
        onWrite p { io with errno := errno } (counts.map .count) = some (io', false)

/-- If the write buffer is drained, its whole capacity is free, and a message of up to that many
    bytes, none of them zero, is queued in full by the next `send`. -/
def Reclaimed (p : Ptr) (io : ChannelCall) : Prop :=
  io.channel.writebuf.readable = 0 →
    io.channel.writebuf.writable = kBufferSize - 1 ∧
      ∀ msg : List UInt8, 0 ∉ msg → msg.length ≤ kBufferSize - 1 →
        (send p io msg).channel.writebuf.content = msg

/-- `errno` is stale and the first `::write` takes everything that is queued. -/
def DrainsOnStaleErrno (io : ChannelCall) (errno : Errno) (counts : List ℕ) : Prop :=
  errno = EAGAIN ∧ 0 < io.channel.writebuf.readable ∧
    counts.head?.map (fun n => (n : ℤ)) = some io.channel.writebuf.readable

theorem send_writebuf (p : Ptr) (io : ChannelCall) (msg : List UInt8) :
    (send p io msg).channel.writebuf = (io.channel.write msg).writebuf := by
  simp only [send, write]
  split <;> rfl

theorem reclaimed_of_fresh {io : ChannelCall} (h : io.channel.writebuf = .fresh _) :
    Reclaimed p io := by
  have hwf : io.channel.writebuf.WF := h ▸ FixedBuffer.wf_fresh Channel.kBufferSize_pos
  have hfree : io.channel.writebuf.writable = kBufferSize - 1 := by
    rw [h, FixedBuffer.writable_fresh]
  refine fun _ => ⟨hfree, fun msg hmsg hlen => ?_⟩
  have hfits : (msg.length : ℤ) ≤ io.channel.writebuf.writable := by
    rw [hfree]; simp only [kBufferSize] at hlen ⊢; omega
  rw [send_writebuf, Channel.content_write hwf hmsg hfits, h, FixedBuffer.content_fresh,
    List.nil_append]

/-- Where successful calls leave the buffer: reset, unless `errno` is a stale `EAGAIN`, which
    stops the loop after the first bytes. -/
theorem writebuf_onWrite_counts (io : ChannelCall) {counts : List ℕ} (hwf : io.channel.writebuf.WF)
    (hans : Answered p io (counts.map .count))
    (hrun : onWrite p io (counts.map .count) = some (io', false)) :
    (io'.channel.writebuf = .fresh _ ∧ (io.errno = EAGAIN → counts.head? = some 0)) ∨
      ∃ n rest, counts = n :: rest ∧ n ≠ 0 ∧ io.errno = EAGAIN ∧
        (n : ℤ) ≤ io.channel.writebuf.readable ∧
        io'.channel.writebuf = io.channel.writebuf.read n := by
  induction counts generalizing io with
  | nil => simp [onWrite] at hrun
  | cons n rest ih =>
    rw [List.map_cons] at hans hrun
    have hle : (n : ℤ) ≤ io.channel.writebuf.readable := hans.1.1.trans (writeRequest_le _)
    rw [onWrite_cons] at hrun
    by_cases h0 : n = 0
    · -- nothing was queued, and the call ends through `readall`
      have hlen : (WriteResult.count n).len = 0 := by simp [WriteResult.len, h0]
      have hends : (WriteResult.count n).Ends io.errno := .inl hlen
      rw [if_pos hends, Option.some.injEq, Prod.mk.injEq] at hrun
      exact .inl ⟨hrun.1 ▸ (onWriteIter_of_zero p io hlen).1, fun _ => by rw [h0]; rfl⟩
    · have hlen : (WriteResult.count n).len ≠ 0 := by simpa [WriteResult.len] using h0
      have hbuf := (onWriteIter_of_ne_zero p io hlen).1
      have hends : (WriteResult.count n).Ends io.errno ↔ io.errno = EAGAIN := by
        simp [WriteResult.Ends, hlen, WriteResult.errno]
      by_cases he : io.errno = EAGAIN
      · -- the stale value ends the call behind the first answer
        rw [if_pos (hends.mpr he), Option.some.injEq, Prod.mk.injEq] at hrun
        exact .inr ⟨n, rest, rfl, h0, he, hle, hrun.1 ▸ hbuf⟩
      · have hnot : ¬ (WriteResult.count n).Ends io.errno := fun h => he (hends.mp h)
        rw [if_neg hnot] at hrun
        have hwf' : (onWriteIter p io (.count n)).1.channel.writebuf.WF := by
          rw [hbuf]; exact hwf.read (by simp [WriteResult.len]) hle
        rcases ih _ hwf' (hans.2 hnot) hrun with h | ⟨_, _, _, _, he', _⟩
        · exact .inl ⟨h.1, fun he' => absurd he' he⟩
        · exact absurd ((onWriteIter_errno p io (.count n)).symm.trans he') he

/-- The write buffer stays well formed in every run. -/
theorem outputRuns_wf {io : ChannelCall} (h : (outputRuns p).Reachable io) :
    io.channel.writebuf.WF := by
  refine h.invariant (I := fun io => io.channel.writebuf.WF) ?_ ?_
  · rintro io ⟨fd, hc⟩
    rw [hc]
    exact FixedBuffer.wf_fresh Channel.kBufferSize_pos
  · rintro io (msg | ⟨errno, counts⟩) io' - hwf hstep
    · rw [show io' = send p io msg from hstep, send_writebuf]
      exact hwf.append _ _
    · obtain ⟨hans, hrun⟩ := hstep
      rcases writebuf_onWrite_counts { io with errno := errno } hwf hans hrun with
        ⟨h, -⟩ | ⟨n, -, -, -, -, hle, h⟩
      · rw [h]; exact FixedBuffer.wf_fresh Channel.kBufferSize_pos
      · rw [h]; exact hwf.read (Int.natCast_nonneg n) hle

/-- In every run of sends and flushes on a new channel, and at every return of `onWrite` in it,
    a drained write buffer has its whole capacity back if and only if the call did not drain it
    while `errno` was a stale `EAGAIN`. -/
theorem reclaimed_iff (p : Ptr) (io io' : ChannelCall) (errno : Errno) (counts : List ℕ)
    (hreach : (outputRuns p).Reachable io)
    (hstep : (outputRuns p).step io (.onWrite errno counts) io') :
    Reclaimed p io' ↔ ¬ DrainsOnStaleErrno io errno counts := by
  have hwf := outputRuns_wf hreach
  obtain ⟨hans, hrun⟩ := hstep
  rcases writebuf_onWrite_counts { io with errno := errno } hwf hans hrun with
    ⟨h, hzero⟩ | ⟨n, rest, rfl, hn, herrno, hle, h⟩
  · refine ⟨fun _ ⟨he, hpos, hhead⟩ => ?_, fun _ => reclaimed_of_fresh h⟩
    rw [hzero he] at hhead
    have h0 : ((0 : ℕ) : ℤ) = io.channel.writebuf.readable := Option.some.inj hhead
    omega
  · simp only at herrno hle h
    have hreadable : io'.channel.writebuf.readable = io.channel.writebuf.readable - n := by
      rw [h, FixedBuffer.readable_read]
    have hwritable : io'.channel.writebuf.writable = io.channel.writebuf.writable := by
      rw [h]; rfl
    constructor
    · rintro hrec ⟨-, -, hhead⟩
      have hall : (n : ℤ) = io.channel.writebuf.readable := by simpa using hhead
      have hfull := (hrec (by omega)).1
      have hw := hwf.reader_nonneg
      simp only [FixedBuffer.readable] at hall
      simp only [FixedBuffer.writable] at hwritable hfull
      omega
    · intro hclean hdrained
      have hall : (n : ℤ) = io.channel.writebuf.readable := by omega
      exact absurd ⟨herrno, by omega, congrArg some hall⟩ hclean

/-- A call on a new channel, on descriptor 5. -/
def newCall : ChannelCall := ⟨Channel.new 5, fun _ => none, 0, []⟩

/-- Two bytes are sent and flushed in one `::write` while `errno` holds a stale `EAGAIN`: the
    buffer is empty, and two bytes of its capacity are gone. -/
theorem reclaimed_fails_on_stale_errno :
    ¬ ∀ (p : Ptr) (io io' : ChannelCall) (errno : Errno) (counts : List ℕ),
      (outputRuns p).Reachable io → (outputRuns p).step io (.onWrite errno counts) io' →
      Reclaimed p io' := by
  intro h
  have hsend : (outputRuns 0).Reachable (send 0 newCall [65, 66]) :=
    .next (.send [65, 66]) (.start ⟨5, rfl⟩) rfl
  have := (h 0 _ _ EAGAIN [2] hsend ⟨by decide, rfl⟩ (by decide)).1
  revert this
  decide

theorem reclaimed_iff_two_bytes :
    ∃ io', (outputRuns 0).step (send 0 newCall [65, 66]) (.onWrite 0 [2, 0]) io' ∧
      (Reclaimed 0 io' ↔ ¬ DrainsOnStaleErrno (send 0 newCall [65, 66]) 0 [2, 0]) :=
  ⟨_, ⟨by decide, rfl⟩, reclaimed_iff 0 _ _ 0 [2, 0]
    (.next (.send [65, 66]) (.start ⟨5, rfl⟩) rfl) ⟨by decide, rfl⟩⟩

end TcpEndpoint

end Codechiev
