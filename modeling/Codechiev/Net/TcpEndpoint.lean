import Codechiev.Net.Channel

/-!
# `net::TcpEndpoint`

The calls that move bytes between a socket and the buffers of one channel: `onRead`, `onWrite`
and `write`. Each works on the channel, the epoll set and the thread's `errno`. What `::read` and
`::write` answer is a script, one result for each iteration of the loop; a call that runs out of
script has not returned, and is `none`.
-/

namespace Codechiev

/-- What `::write` answers: the number of bytes it took, or -1 and the `errno` it set. -/
inductive WriteResult where
  | count (n : ℕ)
  | error (e : Errno)
  deriving DecidableEq

/-- What `::read` answers: the bytes it returned (none of them at the end of the stream), or -1
    and the `errno` it set. -/
inductive ReadResult where
  | data (bytes : List UInt8)
  | error (e : Errno)
  deriving DecidableEq

namespace WriteResult

/-- The value returned, as the `int` the loop tests. -/
def len : WriteResult → ℤ
  | count n => n
  | error _ => -1

/-- A successful call leaves `errno` as it was. -/
def errno (old : Errno) : WriteResult → Errno
  | count _ => old
  | error e => e

/-- The answers on which `onWrite` returns: zero, and any other one when `errno` is `EAGAIN`
    after it. -/
def Ends (old : Errno) (r : WriteResult) : Prop := r.len = 0 ∨ r.errno old = EAGAIN

instance (old : Errno) (r : WriteResult) : Decidable (r.Ends old) :=
  inferInstanceAs (Decidable (_ ∨ _))

/-- The results a request for `n` bytes can have: between 1 and `n` bytes, 0 for a request of
    zero bytes only, or an error. -/
def Answers (n : ℤ) : WriteResult → Prop
  | count k => (k : ℤ) ≤ n ∧ (k = 0 ↔ n = 0)
  | error _ => True

instance (n : ℤ) : (r : WriteResult) → Decidable (r.Answers n)
  | count _ => inferInstanceAs (Decidable (_ ∧ _))
  | error _ => isTrue trivial

end WriteResult

namespace ReadResult

def len : ReadResult → ℤ
  | data bytes => bytes.length
  | error _ => -1

def errno (old : Errno) : ReadResult → Errno
  | data _ => old
  | error e => e

/-- The contents of the local `buffer`. -/
def bytes : ReadResult → List UInt8
  | data bytes => bytes
  | error _ => []

end ReadResult

/-- What a call on one channel works on. `sent` collects the bytes that the socket accepted. -/
structure ChannelCall where
  channel : Channel
  epoll : EPoll
  errno : Errno
  sent : List UInt8

/-- How `onRead` returns: through `onClose` with `true`, through its error branch, or at its
    `EAGAIN` test, with or without a call of `onData_`; all but the first with `false`. -/
inductive ReadExit where
  | closing
  | failed
  | delivering
  | waiting
  deriving DecidableEq

namespace TcpEndpoint

/-- `updateChannel`: the mask becomes the channel's, and epoll's. -/
def updateChannel (p : Ptr) (io : ChannelCall) (events : EventMask) : ChannelCall :=
  let c := io.channel.setEvent events
  { io with channel := c, epoll := io.epoll.setChannel p c }

/-- `write(Channel*, const std::string&)`, under the endpoint's mutex. -/
def write (p : Ptr) (io : ChannelCall) (msg : List UInt8) : ChannelCall :=
  let io := { io with channel := io.channel.write msg }
  if io.channel.writebuf.readable ≠ 0 then updateChannel p io (EPOLLIN ||| EPOLLOUT) else io

/-- `send(const channel_ptr&, const std::string&)`. -/
def send (p : Ptr) (io : ChannelCall) (msg : List UInt8) : ChannelCall := write p io msg

/-- The length that `onWrite` passes to `::write`. -/
def writeRequest (c : Channel) : ℤ :=
  let readable := c.writebuf.readable
  if readable > kBufferEachTimeSize then kBufferEachTimeSize else readable

/-- One iteration of `onWrite`, given what `::write` answered; `some` is a `return`. The last
    branch cannot be reached: an `int` that is not zero takes the first. -/
def onWriteIter (p : Ptr) (io : ChannelCall) (r : WriteResult) : ChannelCall × Option Bool :=
  let len := r.len
  let wbuf := io.channel.writebuf
  let io := { io with
    errno := r.errno io.errno
    sent := io.sent ++ wbuf.region wbuf.reader len.toNat }
  if len ≠ 0 then
    -- also for -1, which moves the reader back
    let io := { io with channel := { io.channel with writebuf := wbuf.read len } }
    -- `errno` is tested after a successful call as well
    if io.errno = EAGAIN then
      let io :=
        if io.channel.writebuf.readable ≠ 0 then updateChannel p io (EPOLLIN ||| EPOLLOUT)
        else updateChannel p io EPOLLIN
      let io := { io with epoll := io.epoll.setChannel p io.channel }
      ({ io with channel := io.channel.writeEvent }, some false)
    else (io, none)
  else if len = 0 then
    let io := { io with channel := { io.channel.writeEvent with writebuf := wbuf.readall } }
    (updateChannel p io EPOLLIN, some false)
  else (io, some false)

/-- `onWrite(Channel*)`: the state and the value it returns. -/
def onWrite (p : Ptr) (io : ChannelCall) : List WriteResult → Option (ChannelCall × Bool)
  | [] => none
  | r :: rs =>
    match onWriteIter p io r with
    | (io', some ret) => some (io', ret)
    | (io', none) => onWrite p io' rs

/-- One iteration of `onRead`, given what `::read` answered. The third branch cannot be reached:
    an `int` that is not zero takes the first. -/
def onReadIter (p : Ptr) (hasOnData : Bool) (io : ChannelCall) (r : ReadResult) :
    ChannelCall × Option ReadExit :=
  let len := r.len
  let io := { io with errno := r.errno io.errno }
  if len ≠ 0 then
    -- for -1 nothing is appended, and the loop goes on unless `errno` is `EAGAIN`
    let io := { io with
      channel := { io.channel with readbuf := (io.channel.readbuf.append r.bytes len).1 } }
    if io.errno = EAGAIN then
      let io := updateChannel p io EPOLLIN
      if hasOnData ∧ io.channel.readbuf.readable ≠ 0 then (io, some .delivering)
      else (io, some .waiting)
    else (io, none)
  else if len = 0 then (io, some .closing)
  else (io, some .failed)

/-- `onRead(Channel*)`, up to the call of `onClose` or `onData_` it ends with. -/
def onRead (p : Ptr) (hasOnData : Bool) (io : ChannelCall) :
    List ReadResult → Option (ChannelCall × ReadExit)
  | [] => none
  | r :: rs =>
    match onReadIter p hasOnData io r with
    | (io', some exit) => some (io', exit)
    | (io', none) => onRead p hasOnData io' rs

/-! ## `updateChannel` and `write` -/

@[simp] theorem updateChannel_sent (p : Ptr) (io : ChannelCall) (e : EventMask) :
    (updateChannel p io e).sent = io.sent := rfl

theorem writeRequest_le (c : Channel) : writeRequest c ≤ c.writebuf.readable := by
  simp only [writeRequest]; split <;> omega

theorem writeRequest_eq_zero {c : Channel} (h : writeRequest c = 0) :
    c.writebuf.readable = 0 := by
  unfold writeRequest kBufferEachTimeSize at h; dsimp only at h; split at h <;> omega

/-- A non-zero answer moves the reader, whatever its sign. -/
theorem onWriteIter_of_ne_zero (p : Ptr) (io : ChannelCall) {r : WriteResult} (h : r.len ≠ 0) :
    (onWriteIter p io r).1.channel.writebuf = io.channel.writebuf.read r.len ∧
      (onWriteIter p io r).1.sent =
        io.sent ++ io.channel.writebuf.region io.channel.writebuf.reader r.len.toNat := by
  simp only [onWriteIter]
  rw [if_pos h]
  split
  · split <;> exact ⟨rfl, rfl⟩
  · exact ⟨rfl, rfl⟩

/-- The answer zero clears the write buffer. -/
theorem onWriteIter_of_zero (p : Ptr) (io : ChannelCall) {r : WriteResult} (h : r.len = 0) :
    (onWriteIter p io r).1.channel.writebuf = .fresh _ ∧
      (onWriteIter p io r).1.sent = io.sent := by
  simp only [onWriteIter]
  simp only [h, ne_eq, not_true_eq_false, if_false, if_true]
  refine ⟨rfl, ?_⟩
  simp

theorem onWriteIter_errno (p : Ptr) (io : ChannelCall) (r : WriteResult) :
    (onWriteIter p io r).1.errno = r.errno io.errno := by
  simp only [onWriteIter]
  split
  · split
    · split <;> rfl
    · rfl
  · split <;> rfl

/-- When an iteration returns, and with which value. -/
theorem onWriteIter_return (p : Ptr) (io : ChannelCall) (r : WriteResult) :
    (onWriteIter p io r).2 = if r.Ends io.errno then some false else none := by
  simp only [onWriteIter, WriteResult.Ends]
  by_cases h : r.len = 0
  · simp [h]
  · by_cases he : r.errno io.errno = EAGAIN
    · simp only [ne_eq, h, not_false_eq_true, if_true, he, or_true]
    · simp [h, he]

/-- The first answer either ends the call or leaves the rest of the script to the loop. -/
theorem onWrite_cons (p : Ptr) (io : ChannelCall) (r : WriteResult) (rs : List WriteResult) :
    onWrite p io (r :: rs) =
      if r.Ends io.errno then some ((onWriteIter p io r).1, false)
      else onWrite p (onWriteIter p io r).1 rs := by
  rw [onWrite]
  have hret := onWriteIter_return p io r
  split <;> rename_i io' _ heq <;> rw [heq] at hret ⊢ <;> split <;> simp_all

end TcpEndpoint

end Codechiev
