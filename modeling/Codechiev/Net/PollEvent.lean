import Codechiev.Net.EventLoop
import Codechiev.Net.HardErrors

/-!
# One round of `pollEvent`

`EPoll::poll` puts the mask that epoll reported into `event_` of each channel, and `pollEvent` tests
its bits one after the other. The same field holds the interest mask that `onRead`, `onWrite` and
`write` set, and each test reads it anew: once `onRead` or `onWrite` has returned, the bits reported
are gone. And a call that does not return hides all that comes after it in the round.
`round_actsOn_iff` says exactly when every bit reported for an established channel is acted on all
the same.

What a turn does to the other channels of the round are the sends of its callbacks. They reach a
channel's mask before its own turn, so the condition follows them from turn to turn (`sends`,
`sentBy`). The map `channels_` plays no part in the tests and is left out.
-/

namespace Codechiev

/-- What `pollEvent` meets in the turn for one channel: what `::read` and `::write` answer and with
    which `errno` the calls start, what `onData_` leaves of the read buffer, what `::accept` and
    `new` return on the listening channel, and the sends of each callback. -/
structure ChannelTurn where
  channel : Ptr
  readErrno : Errno
  reads : List ReadResult
  onData : ChannelBuffer → ChannelBuffer
  dataSends : List (Ptr × List UInt8)
  writeErrno : Errno
  writes : List WriteResult
  accepted : Option (Ptr × Fd)
  connectSends : List (Ptr × List UInt8)
  closeSends : List (Ptr × List UInt8)

/-- What the turn did: whether `onRead` closed the channel, whether `onWrite` ran, and whether the
    last test closed it. -/
structure Report where
  readClosed : Bool
  wrote : Bool
  closed : Bool

namespace ChannelTurn

variable (t : ChannelTurn)

/-- `onClose`, and what `onClose_` sends. -/
def onClose (e : Endpoint) (c : Channel) : Endpoint :=
  (e.onClose t.channel c).sendAll t.closeSends

/-- `channel->getEvent() & EPOLLIN && onRead(channel)`. -/
def testIn (hasOnData : Bool) (e : Endpoint) (c : Channel) : Option (Endpoint × Bool) :=
  if c.event &&& EPOLLIN ≠ 0 then
    match TcpEndpoint.onRead t.channel hasOnData (e.call c t.readErrno) t.reads with
    | none => none
    | some (io, .closing) => some (t.onClose (e.store t.channel io) io.channel, true)
    | some (io, .delivering) =>
      let io := { io with channel := { io.channel with readbuf := t.onData io.channel.readbuf } }
      some ((e.store t.channel io).sendAll t.dataSends, false)
    | some (io, .waiting) | some (io, .failed) => some (e.store t.channel io, false)
  else some (e, false)

/-- `TcpServer::onConnect`: the channel of an accepted connection is a new object. -/
def accept (e : Endpoint) : Endpoint :=
  match t.accepted with
  | none => e
  | some (p, fd) => (e.addChannel p fd EPOLLIN).sendAll t.connectSends

/-- `TcpClient::onConnect`. -/
def connected (e : Endpoint) (c : Channel) : Endpoint :=
  (e.store t.channel (TcpEndpoint.updateChannel t.channel
    (e.call (c.setConnected true) 0) EPOLLIN)).sendAll t.connectSends

/-- The test for `EPOLLOUT`, where a client's channel that is not connected goes to `onConnect`:
    whether `onWrite` answered true, and whether it ran. -/
def testOut (role : Role) (e : Endpoint) (c : Channel) : Option (Endpoint × Bool × Bool) :=
  if c.event &&& EPOLLOUT ≠ 0 then
    if role = .server ∨ c.connected = true then
      (TcpEndpoint.onWrite t.channel (e.call c t.writeErrno) t.writes).map fun out =>
        (e.store t.channel out.1, out.2, true)
    else some (t.connected e c, false, false)
  else some (e, false, false)

/-- The test for a hang-up. -/
def testHup (e : Endpoint) (c : Channel) : Endpoint × Bool :=
  if c.event &&& (EPOLLHUP ||| EPOLLRDHUP) ≠ 0 then (t.onClose e c, true) else (e, false)

/-- The last two tests: whether `onWrite` ran, and whether the channel was closed. -/
def finish (role : Role) (e : Endpoint) (c : Channel) : Option (Endpoint × Bool × Bool) := do
  let (e, ret, wrote) ← t.testOut role e c
  if ret then return (e, wrote, false)
  let (e, closed) := t.testHup e (← e.heap t.channel)
  return (e, wrote, closed)

/-- The body of the loop. A call that does not return leaves no report. -/
def run (role : Role) (listener : Fd) (hasOnData : Bool) (e : Endpoint) :
    Option (Endpoint × Report) := do
  let c ← e.heap t.channel
  if role = .server ∧ c.fd = listener then return (t.accept e, ⟨false, false, false⟩)
  let (e, ret) ← t.testIn hasOnData e c
  if ret then return (e, ⟨true, false, false⟩)
  let (e, wrote, closed) ← t.finish role e (← e.heap t.channel)
  return (e, ⟨false, wrote, closed⟩)

end ChannelTurn

/-- `EPoll::poll`: the channels with the masks that epoll reported. -/
def Endpoint.poll (e : Endpoint) : List (EventMask × ChannelTurn) → Endpoint
  | [] => e
  | (m, t) :: rest =>
    match e.heap t.channel with
    | none => e.poll rest
    | some c => (e.store t.channel { e.call c 0 with channel := c.setEvent m }).poll rest

/-- `TcpServer::pollEvent` and `TcpClient::pollEvent`: the reports of the turns that came to their
    end, and the endpoint, if all did. -/
def Endpoint.pollEvent (role : Role) (listener : Fd) (hasOnData : Bool) (e : Endpoint) :
    List ChannelTurn → List Report × Option Endpoint
  | [] => ([], some e)
  | t :: ts =>
    match t.run role listener hasOnData e with
    | none => ([], none)
    | some (e', r) =>
      let out := e'.pollEvent role listener hasOnData ts
      (r :: out.1, out.2)

/-- The reports of one round. -/
def Endpoint.round (role : Role) (listener : Fd) (hasOnData : Bool) (e : Endpoint)
    (batch : List (EventMask × ChannelTurn)) : List Report :=
  ((e.poll batch).pollEvent role listener hasOnData (batch.map Prod.snd)).1

/-- A connection: accepted by the server, or one on which the client has called `onConnect`. -/
def Role.Established (listener : Fd) (c : Channel) : Role → Prop
  | .server => c.fd ≠ listener
  | .client => c.connected = true

/-- Every bit of the mask was acted on in the turn, or the channel was closed before. In a turn
    that was not reached, or did not come to its end, none was. -/
def ActsOn (m : EventMask) (r : Option Report) : Prop :=
  (m &&& EPOLLOUT ≠ 0 → ∃ x ∈ r, x.wrote = true ∨ x.readClosed = true) ∧
    (m &&& (EPOLLHUP ||| EPOLLRDHUP) ≠ 0 → ∃ x ∈ r, x.closed = true ∨ x.readClosed = true)

/-! ## What a turn comes to, read off its input -/

/-- The messages sent on the channel at `p`. -/
def messagesTo (p : Ptr) (sends : List (Ptr × List UInt8)) : List (List UInt8) :=
  (sends.filter fun x => x.1 = p).map Prod.snd

namespace Channel

/-- A send queues the message, and sets the mask if bytes are queued then. -/
def afterSend (c : Channel) (msg : List UInt8) : Channel :=
  let wbuf := (c.writebuf.appendStr msg).1
  { c with
    writebuf := wbuf
    event := if wbuf.readable ≠ 0 then EPOLLIN ||| EPOLLOUT else c.event }

def afterSends (c : Channel) (msgs : List (List UInt8)) : Channel := msgs.foldl afterSend c

end Channel

/-- Bytes are queued after one of the sends, so that it sets the mask. -/
def LeavesQueued (wbuf : ChannelBuffer) : List (List UInt8) → Prop
  | [] => False
  | msg :: rest => (wbuf.appendStr msg).1.readable ≠ 0 ∨ LeavesQueued (wbuf.appendStr msg).1 rest

instance : (wbuf : ChannelBuffer) → (msgs : List (List UInt8)) → Decidable (LeavesQueued wbuf msgs)
  | _, [] => isFalse id
  | wbuf, msg :: rest =>
    have := instDecidableLeavesQueued (wbuf.appendStr msg).1 rest
    inferInstanceAs (Decidable (_ ∨ _))

instance : (errno : Errno) → (script : List ReadResult) →
    Decidable (TcpEndpoint.ReadsEof errno script)
  | _, [] => isFalse id
  | errno, r :: rs =>
    have := instDecidableReadsEof (r.errno errno) rs
    inferInstanceAs (Decidable (_ ∨ _ ∧ _))

namespace ChannelTurn

/-- The channel as its turn finds it: with the mask `m` that epoll reported, and what the callbacks
    of earlier turns have `sent` on it. -/
def found (m : EventMask) (c : Channel) (sent : List (Ptr × List UInt8)) (t : ChannelTurn) :
    Channel := (c.setEvent m).afterSends (messagesTo t.channel sent)

variable (role : Role) (listener : Fd) (hasOnData : Bool) (c : Channel) (t : ChannelTurn)

/-- `onRead` is called and reads the end of the stream. -/
def Closes : Prop := c.event &&& EPOLLIN ≠ 0 ∧ TcpEndpoint.ReadsEof t.readErrno t.reads

/-- There is something for `onData_`, once `onRead` is at its end. -/
def Presents : Prop :=
  hasOnData = true ∧
    c.readbuf.content ++ TcpEndpoint.appended c.readbuf t.readErrno t.reads ≠ []

/-- `onData_` is called in the turn, and what it sends on its own channel sets the mask again. -/
def Rearms : Prop :=
  t.Presents hasOnData c ∧ LeavesQueued c.writebuf (messagesTo t.channel t.dataSends)

instance : Decidable (t.Closes c) := inferInstanceAs (Decidable (_ ∧ _))
instance : Decidable (t.Presents hasOnData c) := inferInstanceAs (Decidable (_ ∧ _))
instance : Decidable (t.Rearms hasOnData c) := inferInstanceAs (Decidable (_ ∧ _))

/-- The mask in `event_` at the test for `EPOLLOUT`. -/
def maskAfterIn : EventMask :=
  if c.event &&& EPOLLIN ≠ 0 then if t.Rearms hasOnData c then EPOLLIN ||| EPOLLOUT else EPOLLIN
  else c.event

/-- The calls of the turn return. -/
def Returns : Prop :=
  ¬ (role = .server ∧ c.fd = listener) →
    (c.event &&& EPOLLIN ≠ 0 → ReadResult.EndsWithin t.readErrno t.reads) ∧
      (¬ t.Closes c → t.maskAfterIn hasOnData c &&& EPOLLOUT ≠ 0 →
        role = .server ∨ c.connected = true → WriteResult.EndsWithin t.writeErrno t.writes)

/-- What is sent in the test for `EPOLLIN`, if it does not close the channel. -/
def sendsIn : List (Ptr × List UInt8) :=
  if c.event &&& EPOLLIN ≠ 0 ∧ t.Presents hasOnData c then t.dataSends else []

/-- What is sent in the last two tests, which the channel enters as `c`. -/
def sendsLast : List (Ptr × List UInt8) :=
  if c.event &&& EPOLLOUT ≠ 0 then
    if role = .server ∨ c.connected = true then [] else t.connectSends
  else if c.event &&& (EPOLLHUP ||| EPOLLRDHUP) ≠ 0 then t.closeSends
  else []

/-- The sends of the callbacks that the turn calls. -/
def sends : List (Ptr × List UInt8) :=
  if role = .server ∧ c.fd = listener then if t.accepted.isSome then t.connectSends else []
  else if t.Closes c then t.closeSends
  else t.sendsIn hasOnData c ++ t.sendsLast role (c.setEvent (t.maskAfterIn hasOnData c))

/-- No bit of the reported mask `m` gets lost in the turn that finds the channel as `c`. -/
def KeepsBits (m : EventMask) : Prop :=
  if c.event &&& EPOLLIN ≠ 0 then
    TcpEndpoint.ReadsEof t.readErrno t.reads ∨
      m &&& (EPOLLHUP ||| EPOLLRDHUP) = 0 ∧ (m &&& EPOLLOUT ≠ 0 → t.Rearms hasOnData c)
  else m &&& (EPOLLHUP ||| EPOLLRDHUP) = 0 ∨ m &&& EPOLLOUT = 0

instance : Decidable (t.Returns role listener hasOnData c) :=
  inferInstanceAs (Decidable (_ → _ ∧ _))
instance (m : EventMask) : Decidable (t.KeepsBits hasOnData c m) :=
  inferInstanceAs (Decidable (if c.event &&& EPOLLIN ≠ 0 then _ ∨ _ ∧ (_ → _) else _ ∨ _))

end ChannelTurn

namespace Endpoint

variable (role : Role) (listener : Fd) (hasOnData : Bool) (e : Endpoint)

/-- What the callbacks have sent by the end of the turns of a batch, and `sent` before them. -/
def sentBy (sent : List (Ptr × List UInt8)) :
    List (EventMask × ChannelTurn) → List (Ptr × List UInt8)
  | [] => sent
  | (m, t) :: rest =>
    match e.heap t.channel with
    | none => sentBy sent rest
    | some c => sentBy (sent ++ t.sends role listener hasOnData (t.found m c sent)) rest

/-- The calls of all these turns return. -/
def TurnsReturn (sent : List (Ptr × List UInt8)) : List (EventMask × ChannelTurn) → Prop
  | [] => True
  | (m, t) :: rest =>
    match e.heap t.channel with
    | none => False
    | some c =>
      t.Returns role listener hasOnData (t.found m c sent) ∧
        TurnsReturn (sent ++ t.sends role listener hasOnData (t.found m c sent)) rest

end Endpoint

/-! ## What the calls leave in `event_` -/

namespace TcpEndpoint

variable {p : Ptr} {hasOnData : Bool} {io io' : ChannelCall}

/-- One iteration of `onRead` on the channel: its read buffer, and its mask at the `EAGAIN`
    test. -/
theorem onReadIter_channel (p : Ptr) (hasOnData : Bool) (io : ChannelCall) (r : ReadResult) :
    (onReadIter p hasOnData io r).1.channel =
      { io.channel with
        readbuf := (io.channel.readbuf.append r.bytes r.len).1
        event := if r.len ≠ 0 ∧ r.errno io.errno = EAGAIN then EPOLLIN else io.channel.event } := by
  have hbuf := onReadIter_readbuf p hasOnData io r
  by_cases hzero : r.len = 0
  · have hsame : (onReadIter p hasOnData io r).1.channel = io.channel := by
      simp [onReadIter, hzero]
    rw [← hbuf, hsame, if_neg (fun h => h.1 hzero)]
  · by_cases he : r.errno io.errno = EAGAIN
    · rw [if_pos ⟨hzero, he⟩]
      simp only [onReadIter]
      rw [if_pos hzero, if_pos he]
      split <;> rfl
    · rw [if_neg (fun h => he h.2)]
      simp only [onReadIter]
      rw [if_pos hzero, if_neg he]

/-- There is something to present exactly if the buffer had bytes or the call appended some. -/
theorem presents_iff {script : List ReadResult} {exit : ReadExit} (hwf : io.channel.readbuf.WF)
    (hrun : onRead p hasOnData io script = some (io', exit)) :
    io'.channel.readbuf.readable ≠ 0 ↔
      io.channel.readbuf.content ++ appended io.channel.readbuf io.errno script ≠ [] := by
  obtain ⟨hwf', hcontent⟩ := content_onRead hwf hrun
  rw [← hcontent, ← hwf'.content_length, ne_eq, ne_eq, Int.natCast_eq_zero,
    List.length_eq_zero_iff]

/-- A call that returns in another way has not read the end of the stream. -/
theorem not_readsEof {script : List ReadResult} {exit : ReadExit} (hexit : exit ≠ .closing)
    (hrun : onRead p hasOnData io script = some (io', exit)) : ¬ ReadsEof io.errno script :=
  fun heof => hexit (onRead_closing heof hrun)

/-- What a call of `onRead` leaves: unless it closes the channel, the mask is `EPOLLIN`. -/
theorem onRead_channel {script : List ReadResult} {exit : ReadExit}
    (hrun : onRead p hasOnData io script = some (io', exit)) :
    io'.channel = { io.channel with
      readbuf := io'.channel.readbuf
      event := if exit = .closing then io.channel.event else EPOLLIN } := by
  induction script generalizing io with
  | nil => cases hrun
  | cons r rs ih =>
    have hiter := onReadIter_channel p hasOnData io r
    rw [onRead_cons] at hrun
    split at hrun
    · rename_i hends
      rw [Option.some.injEq, Prod.mk.injEq] at hrun
      obtain ⟨rfl, rfl⟩ := hrun
      rw [hiter]
      by_cases hzero : r.len = 0
      · simp [exitOn, hzero]
      · have he := hends.resolve_left hzero
        have hexit : exitOn hasOnData (io.channel.readbuf.append r.bytes r.len).1 r ≠
            .closing := by
          simp only [exitOn, if_neg hzero]
          split <;> simp
        simp [hzero, he, hexit]
    · rename_i hgo
      have hkeep : ¬ (r.len ≠ 0 ∧ r.errno io.errno = EAGAIN) := fun h => hgo (.inr h.2)
      have hrest := ih hrun
      rw [hiter, if_neg hkeep] at hrest
      exact hrest

/-- Both exits of `onWrite` answer false, with a mask that has no bit for a hang-up. -/
theorem onWrite_event {script : List WriteResult} {ret : Bool}
    (hrun : onWrite p io script = some (io', ret)) :
    ret = false ∧ (io'.channel.event = EPOLLIN ∨ io'.channel.event = EPOLLIN ||| EPOLLOUT) := by
  induction script generalizing io with
  | nil => cases hrun
  | cons r rs ih =>
    rw [onWrite_cons] at hrun
    split at hrun
    · rename_i hends
      rw [Option.some.injEq, Prod.mk.injEq] at hrun
      obtain ⟨rfl, rfl⟩ := hrun
      refine ⟨rfl, ?_⟩
      by_cases hzero : r.len = 0
      · left
        simp [onWriteIter, hzero, updateChannel, Channel.setEvent]
      · simp only [onWriteIter]
        rw [if_pos hzero, if_pos (hends.resolve_left hzero)]
        split
        · exact .inr rfl
        · exact .inl rfl
    · exact ih hrun

/-- The end of the stream is an answer that ends the loop. -/
theorem ReadsEof.endsWithin {errno : Errno} {script : List ReadResult}
    (h : ReadsEof errno script) : ReadResult.EndsWithin errno script := by
  induction script generalizing errno with
  | nil => exact h
  | cons r rs ih =>
    rcases h with hzero | ⟨-, hrest⟩
    · exact .inl (.inl hzero)
    · exact .inr (ih hrest)

end TcpEndpoint

/-! ## What sends leave of a channel -/

namespace Channel

variable {c : Channel}

theorem afterSends_append (c : Channel) (msgs msgs' : List (List UInt8)) :
    c.afterSends (msgs ++ msgs') = (c.afterSends msgs).afterSends msgs' := List.foldl_append

/-- Sends on a channel change what is queued, and the mask. -/
theorem afterSends_kept (c : Channel) (msgs : List (List UInt8)) :
    (c.afterSends msgs).fd = c.fd ∧ (c.afterSends msgs).connected = c.connected ∧
      (c.afterSends msgs).readbuf = c.readbuf := by
  induction msgs generalizing c with
  | nil => exact ⟨rfl, rfl, rfl⟩
  | cons msg rest ih => exact ih (c.afterSend msg)

/-- They set the mask if one of them leaves bytes queued. -/
theorem afterSends_event (c : Channel) (msgs : List (List UInt8)) :
    (c.afterSends msgs).event =
      if LeavesQueued c.writebuf msgs then EPOLLIN ||| EPOLLOUT else c.event := by
  induction msgs generalizing c with
  | nil => exact (if_neg id).symm
  | cons msg rest ih =>
    refine (ih (c.afterSend msg)).trans ?_
    show (if LeavesQueued (c.writebuf.appendStr msg).1 rest then _ else
      if (c.writebuf.appendStr msg).1.readable ≠ 0 then _ else _) = _
    have hall : LeavesQueued c.writebuf (msg :: rest) ↔
        (c.writebuf.appendStr msg).1.readable ≠ 0 ∨
          LeavesQueued (c.writebuf.appendStr msg).1 rest := Iff.rfl
    by_cases hlater : LeavesQueued (c.writebuf.appendStr msg).1 rest
    · rw [if_pos hlater, if_pos (hall.mpr (.inr hlater))]
    · rw [if_neg hlater]
      by_cases hqueued : (c.writebuf.appendStr msg).1.readable ≠ 0
      · rw [if_pos hqueued, if_pos (hall.mpr (.inl hqueued))]
      · rw [if_neg hqueued, if_neg fun h => (hall.mp h).elim hqueued hlater]

end Channel

@[simp] theorem messagesTo_append (p : Ptr) (S S' : List (Ptr × List UInt8)) :
    messagesTo p (S ++ S') = messagesTo p S ++ messagesTo p S' := by
  simp [messagesTo]

namespace Endpoint

/-- All that changed of the channel at `p` are the sends `S` on it. -/
def Sends (p : Ptr) (S : List (Ptr × List UInt8)) (e e' : Endpoint) : Prop :=
  e'.heap p = (e.heap p).map (·.afterSends (messagesTo p S))

variable {p q : Ptr} {S S' : List (Ptr × List UInt8)} {e e₁ e' : Endpoint} {c : Channel}
  {io : ChannelCall}

theorem Sends.of_heap_eq (h : e'.heap p = e.heap p) : Sends p [] e e' := by
  rw [Sends, h]
  exact (Option.map_id' (x := e.heap p)).symm

theorem Sends.trans (h : Sends p S e e₁) (h' : Sends p S' e₁ e') : Sends p (S ++ S') e e' := by
  rw [Sends, h', h, Option.map_map, messagesTo_append]
  congr 1
  funext c
  exact (c.afterSends_append _ _).symm

/-- A send on the channel itself. -/
theorem send_heap_self (e : Endpoint) (p : Ptr) (msg : List UInt8) :
    (e.send p msg).heap p = (e.heap p).map (·.afterSend msg) := by
  rw [send]
  split
  · rename_i c hc
    rw [hc]
    refine (store_heap_self _ _ _).trans (congrArg some ?_)
    rw [TcpEndpoint.send]
    by_cases hempty : (c.write msg).writebuf.readable = 0
    · rw [TcpEndpoint.write_of_empty p (e.call c 0) msg hempty]
      have hmask : (c.afterSend msg).event = c.event := if_neg (not_not.mpr hempty)
      exact congrArg (fun m => { c.write msg with event := m }) hmask.symm
    · rw [TcpEndpoint.write_of_queued p (e.call c 0) msg hempty]
      have hmask : (c.afterSend msg).event = EPOLLIN ||| EPOLLOUT := if_pos hempty
      exact congrArg (fun m => { c.write msg with event := m }) hmask.symm
  · rename_i hnone
    rw [hnone]
    rfl

theorem send_heap_of_ne {msg : List UInt8} (h : p ≠ q) : (e.send q msg).heap p = e.heap p := by
  rw [send]
  split
  · exact store_heap_of_ne h
  · rfl

theorem sends_sendAll (e : Endpoint) (p : Ptr) (S : List (Ptr × List UInt8)) :
    Sends p S e (e.sendAll S) := by
  induction S generalizing e with
  | nil => exact .of_heap_eq rfl
  | cons x rest ih =>
    obtain ⟨q, msg⟩ := x
    refine Sends.trans (S := [(q, msg)]) ?_ (ih (e.send q msg))
    by_cases heq : q = p
    · subst heq
      have hmsgs : messagesTo q [(q, msg)] = [msg] := by simp [messagesTo]
      rw [Sends, hmsgs]
      exact send_heap_self e q msg
    · have hmsgs : messagesTo p [(q, msg)] = [] := by simp [messagesTo, heq]
      rw [Sends, hmsgs]
      exact Sends.of_heap_eq (send_heap_of_ne (Ne.symm heq))

/-- A call on another channel, and then sends. -/
theorem sends_store_sendAll (h : p ≠ q) : Sends p S e ((e.store q io).sendAll S) :=
  (Sends.of_heap_eq (store_heap_of_ne h)).trans (sends_sendAll _ p S)

end Endpoint

namespace ChannelTurn

open Endpoint

variable {t : ChannelTurn} {role : Role} {listener : Fd} {hasOnData : Bool} {p : Ptr}
  {e e' : Endpoint} {c : Channel} {r : Report}

theorem sends_onClose (h : p ≠ t.channel) : Sends p t.closeSends e (t.onClose e c) :=
  (Sends.of_heap_eq (onClose_heap_of_ne h)).trans (sends_sendAll _ p _)

/-- A new channel is another object. -/
theorem sends_accept (hnew : ∀ fd, t.accepted ≠ some (p, fd)) :
    Sends p (if t.accepted.isSome then t.connectSends else []) e (t.accept e) := by
  rw [accept]
  cases hacc : t.accepted with
  | none => exact .of_heap_eq rfl
  | some x =>
    obtain ⟨q, fd⟩ := x
    have hne : p ≠ q := by
      rintro rfl
      exact hnew fd hacc
    exact (Sends.of_heap_eq (addChannel_heap_of_ne hne)).trans (sends_sendAll _ p _)

/-! ## The tests of one turn -/

/-- What the test for `EPOLLIN` comes to if it does not close the channel: the mask is
    `maskAfterIn`, and the other channels see `sendsIn`. -/
def PassesIn (hasOnData : Bool) (e : Endpoint) (c : Channel) (t : ChannelTurn) : Prop :=
  ∃ e₁ c₁, t.testIn hasOnData e c = some (e₁, false) ∧ e₁.heap t.channel = some c₁ ∧
    c₁.connected = c.connected ∧ c₁.event = t.maskAfterIn hasOnData c ∧
    ∀ p, p ≠ t.channel → Sends p (t.sendsIn hasOnData c) e e₁

theorem passesIn_of_not_in (hc : e.heap t.channel = some c) (hin : ¬ c.event &&& EPOLLIN ≠ 0) :
    t.PassesIn hasOnData e c := by
  refine ⟨e, c, by rw [testIn, if_neg hin], hc, rfl, (if_neg hin).symm, fun p _ => ?_⟩
  rw [sendsIn, if_neg fun h => hin h.1]
  exact .of_heap_eq rfl

/-- `onData_` takes from the read buffer and sends. -/
theorem passesIn_of_presents {io : ChannelCall} (hin : c.event &&& EPOLLIN ≠ 0)
    (hread : TcpEndpoint.onRead t.channel hasOnData (e.call c t.readErrno) t.reads =
      some (io, .delivering)) (hshown : t.Presents hasOnData c) : t.PassesIn hasOnData e c := by
  have hchannel := TcpEndpoint.onRead_channel hread
  have hheap := sends_sendAll (e.store t.channel { io with
    channel := { io.channel with readbuf := t.onData io.channel.readbuf } }) t.channel t.dataSends
  rw [Sends, store_heap_self] at hheap
  obtain ⟨-, hconn, -⟩ := Channel.afterSends_kept
    { io.channel with readbuf := t.onData io.channel.readbuf } (messagesTo t.channel t.dataSends)
  refine ⟨_, _, by rw [testIn, if_pos hin, hread], hheap, hconn.trans (by rw [hchannel]; rfl), ?_,
    fun p hp => ?_⟩
  · rw [Channel.afterSends_event, maskAfterIn, if_pos hin]
    show (if LeavesQueued io.channel.writebuf _ then _ else io.channel.event) = _
    rw [hchannel]
    exact if_congr (and_iff_right hshown).symm rfl rfl
  · rw [sendsIn, if_pos ⟨hin, hshown⟩]
    exact sends_store_sendAll hp

/-- There is nothing to show to `onData_`, or no `onData_`. -/
theorem passesIn_of_not_presents {io : ChannelCall} (hin : c.event &&& EPOLLIN ≠ 0)
    (hread : TcpEndpoint.onRead t.channel hasOnData (e.call c t.readErrno) t.reads =
      some (io, .waiting)) (hquiet : ¬ t.Presents hasOnData c) : t.PassesIn hasOnData e c := by
  have hchannel := TcpEndpoint.onRead_channel hread
  refine ⟨_, _, by rw [testIn, if_pos hin, hread], store_heap_self _ _ _, by rw [hchannel]; rfl, ?_,
    fun p hp => ?_⟩
  · rw [maskAfterIn, if_pos hin, if_neg fun h : t.Rearms hasOnData c => hquiet h.1, hchannel]
    rfl
  · rw [sendsIn, if_neg fun h => hquiet h.2]
    exact .of_heap_eq (store_heap_of_ne hp)

/-- The test for `EPOLLIN`: its `onRead` does not return, or closes the channel at the end of the
    stream, or leaves it open. -/
theorem testIn_spec (hasOnData : Bool) (hc : e.heap t.channel = some c) (hwf : c.readbuf.WF) :
    (c.event &&& EPOLLIN ≠ 0 ∧ ¬ ReadResult.EndsWithin t.readErrno t.reads ∧
        t.testIn hasOnData e c = none) ∨
      (t.Closes c ∧ ∃ e₁, t.testIn hasOnData e c = some (e₁, true) ∧
        ∀ p, p ≠ t.channel → Sends p t.closeSends e e₁) ∨
      (c.event &&& EPOLLIN ≠ 0 → ReadResult.EndsWithin t.readErrno t.reads) ∧ ¬ t.Closes c ∧
        t.PassesIn hasOnData e c := by
  by_cases hin : c.event &&& EPOLLIN ≠ 0
  · have hends : (TcpEndpoint.onRead t.channel hasOnData (e.call c t.readErrno) t.reads).isSome ↔
        ReadResult.EndsWithin t.readErrno t.reads := TcpEndpoint.onRead_ends_iff t.reads
    cases hread : TcpEndpoint.onRead t.channel hasOnData (e.call c t.readErrno) t.reads with
    | none =>
      rw [hread] at hends
      exact .inl ⟨hin, fun h => Bool.false_ne_true (hends.mpr h),
        by rw [testIn, if_pos hin, hread]⟩
    | some out =>
      obtain ⟨io, exit⟩ := out
      rw [hread] at hends
      have hpresent : io.channel.readbuf.readable ≠ 0 ↔
          c.readbuf.content ++ TcpEndpoint.appended c.readbuf t.readErrno t.reads ≠ [] :=
        TcpEndpoint.presents_iff hwf hread
      rcases TcpEndpoint.exit_onRead hread with rfl | ⟨rfl, hset, hdata⟩ | ⟨rfl, hnone⟩
      · refine .inr (.inl ⟨⟨hin, TcpEndpoint.readsEof_of_closing hread⟩,
          t.onClose (e.store t.channel io) io.channel, by rw [testIn, if_pos hin, hread], ?_⟩)
        exact fun p hp => (Sends.of_heap_eq (store_heap_of_ne hp)).trans (sends_onClose hp)
      · have hopen : ¬ t.Closes c := fun h =>
          TcpEndpoint.not_readsEof ReadExit.noConfusion hread h.2
        exact .inr (.inr ⟨fun _ => hends.mp rfl, hopen,
          passesIn_of_presents hin hread ⟨hset, hpresent.mp hdata⟩⟩)
      · have hopen : ¬ t.Closes c := fun h =>
          TcpEndpoint.not_readsEof ReadExit.noConfusion hread h.2
        exact .inr (.inr ⟨fun _ => hends.mp rfl, hopen,
          passesIn_of_not_presents hin hread fun h => hnone ⟨h.1, hpresent.mpr h.2⟩⟩)
  · exact .inr (.inr ⟨fun h => absurd h hin, fun h => hin h.1, passesIn_of_not_in hc hin⟩)

/-- Neither of the masks that the calls set has a bit for a hang-up. -/
theorem no_hangUp {m : EventMask} (h : m = EPOLLIN ∨ m = EPOLLIN ||| EPOLLOUT) :
    m &&& (EPOLLHUP ||| EPOLLRDHUP) = 0 := by
  rcases h with rfl | rfl <;> decide

/-- `testHup` on a mask that a call has set. -/
theorem testHup_of_set (h : c.event = EPOLLIN ∨ c.event = EPOLLIN ||| EPOLLOUT) :
    t.testHup e c = (e, false) := by
  rw [testHup, if_neg (not_not.mpr (no_hangUp h))]

/-- What the last two tests come to: the other channels see `sendsLast`, and the mask of an
    established connection says whether it is written, or closed for a hang-up. -/
def Finishes (role : Role) (e : Endpoint) (c : Channel) (t : ChannelTurn) : Prop :=
  ∃ e' wrote closed, t.finish role e c = some (e', wrote, closed) ∧
    (∀ p, p ≠ t.channel → Sends p (t.sendsLast role c) e e') ∧
    (role = .server ∨ c.connected = true → (wrote = true ↔ c.event &&& EPOLLOUT ≠ 0) ∧
      (closed = true ↔ c.event &&& EPOLLOUT = 0 ∧ c.event &&& (EPOLLHUP ||| EPOLLRDHUP) ≠ 0))

/-- After `onWrite` the test for a hang-up finds none. -/
theorem finishes_of_onWrite {io : ChannelCall} {ret : Bool} (hout : c.event &&& EPOLLOUT ≠ 0)
    (hest : role = .server ∨ c.connected = true)
    (hwrite : TcpEndpoint.onWrite t.channel (e.call c t.writeErrno) t.writes = some (io, ret)) :
    t.Finishes role e c := by
  obtain ⟨rfl, hevent⟩ := TcpEndpoint.onWrite_event hwrite
  have htest : t.testOut role e c = some (e.store t.channel io, false, true) := by
    rw [testOut, if_pos hout, if_pos hest, hwrite]
    rfl
  refine ⟨e.store t.channel io, true, false, by simp [finish, htest, testHup_of_set hevent],
    fun p hp => ?_, fun _ => ?_⟩
  · rw [sendsLast, if_pos hout, if_pos hest]
    exact .of_heap_eq (store_heap_of_ne hp)
  · exact ⟨iff_of_true rfl hout, iff_of_false Bool.false_ne_true fun h => hout h.1⟩

/-- A client's `onConnect`, with what `onConnect_` sends. The test for a hang-up finds none. -/
theorem finishes_of_connecting (hout : c.event &&& EPOLLOUT ≠ 0)
    (hest : ¬ (role = .server ∨ c.connected = true)) : t.Finishes role e c := by
  have htest : t.testOut role e c = some (t.connected e c, false, false) := by
    rw [testOut, if_pos hout, if_neg hest]
  have hsends := sends_sendAll (e.store t.channel (TcpEndpoint.updateChannel t.channel
    (e.call (c.setConnected true) 0) EPOLLIN)) t.channel t.connectSends
  rw [Sends, store_heap_self] at hsends
  have hheap : (t.connected e c).heap t.channel = some
      (((c.setConnected true).setEvent EPOLLIN).afterSends
        (messagesTo t.channel t.connectSends)) := hsends
  have hset : (((c.setConnected true).setEvent EPOLLIN).afterSends
      (messagesTo t.channel t.connectSends)).event = EPOLLIN ∨
      (((c.setConnected true).setEvent EPOLLIN).afterSends
        (messagesTo t.channel t.connectSends)).event = EPOLLIN ||| EPOLLOUT := by
    rw [Channel.afterSends_event]
    split
    · exact .inr rfl
    · exact .inl rfl
  refine ⟨t.connected e c, false, false, by simp [finish, htest, hheap, testHup_of_set hset],
    fun p hp => ?_, fun h => absurd h hest⟩
  rw [sendsLast, if_pos hout, if_neg hest]
  exact sends_store_sendAll hp

/-- Only the test for a hang-up is left. -/
theorem finishes_of_not_out (hc : e.heap t.channel = some c) (hout : ¬ c.event &&& EPOLLOUT ≠ 0) :
    t.Finishes role e c := by
  have htest : t.testOut role e c = some (e, false, false) := by rw [testOut, if_neg hout]
  have hfinish : t.finish role e c = some ((t.testHup e c).1, false, (t.testHup e c).2) := by
    simp [finish, htest, hc]
  refine ⟨_, _, _, hfinish, fun p hp => ?_, fun _ => ⟨iff_of_false Bool.false_ne_true hout, ?_⟩⟩
  · rw [sendsLast, if_neg hout, testHup]
    split
    · exact sends_onClose hp
    · exact .of_heap_eq rfl
  · rw [testHup]
    split
    · rename_i hhup
      exact iff_of_true rfl ⟨not_not.mp hout, hhup⟩
    · rename_i hhup
      exact iff_of_false Bool.false_ne_true fun h => hhup h.2

/-- The last two tests. The calls of the first set a mask in which the second finds nothing. -/
theorem finish_spec (t : ChannelTurn) (role : Role) (hc : e.heap t.channel = some c) :
    (c.event &&& EPOLLOUT ≠ 0 ∧ (role = .server ∨ c.connected = true) ∧
        ¬ WriteResult.EndsWithin t.writeErrno t.writes ∧ t.finish role e c = none) ∨
      (c.event &&& EPOLLOUT ≠ 0 → role = .server ∨ c.connected = true →
          WriteResult.EndsWithin t.writeErrno t.writes) ∧ t.Finishes role e c := by
  by_cases hout : c.event &&& EPOLLOUT ≠ 0
  · by_cases hest : role = .server ∨ c.connected = true
    · have hends : (TcpEndpoint.onWrite t.channel (e.call c t.writeErrno) t.writes).isSome ↔
          WriteResult.EndsWithin t.writeErrno t.writes := TcpEndpoint.onWrite_ends_iff t.writes
      cases hwrite : TcpEndpoint.onWrite t.channel (e.call c t.writeErrno) t.writes with
      | none =>
        rw [hwrite] at hends
        have htest : t.testOut role e c = none := by
          rw [testOut, if_pos hout, if_pos hest, hwrite]
          rfl
        exact .inl ⟨hout, hest, fun h => Bool.false_ne_true (hends.mpr h), by simp [finish, htest]⟩
      | some out =>
        rw [hwrite] at hends
        exact .inr ⟨fun _ _ => hends.mp rfl, finishes_of_onWrite hout hest hwrite⟩
    · exact .inr ⟨fun _ h => absurd h hest, finishes_of_connecting hout hest⟩
  · exact .inr ⟨fun h => absurd h hout, finishes_of_not_out hc hout⟩

/-! ## One turn -/

/-- What the turn of a connection does, from the mask it finds. -/
structure Does (hasOnData : Bool) (c : Channel) (t : ChannelTurn) (r : Report) : Prop where
  closes : t.Closes c → r.readClosed = true
  reads : ¬ t.Closes c → r.readClosed = false
  writes : ¬ t.Closes c → (r.wrote = true ↔ t.maskAfterIn hasOnData c &&& EPOLLOUT ≠ 0)
  hangsUp : ¬ t.Closes c → (r.closed = true ↔ t.maskAfterIn hasOnData c &&& EPOLLOUT = 0 ∧
    t.maskAfterIn hasOnData c &&& (EPOLLHUP ||| EPOLLRDHUP) ≠ 0)

/-- A turn comes to its end exactly if its calls return. The other channels then see its sends. -/
theorem run_spec (role : Role) (listener : Fd) (hasOnData : Bool)
    (hc : e.heap t.channel = some c) (hwf : c.readbuf.WF) :
    (¬ t.Returns role listener hasOnData c ∧ t.run role listener hasOnData e = none) ∨
      t.Returns role listener hasOnData c ∧
        ∃ e' r, t.run role listener hasOnData e = some (e', r) ∧
          (∀ p, p ≠ t.channel → (∀ fd, t.accepted ≠ some (p, fd)) →
            Sends p (t.sends role listener hasOnData c) e e') ∧
          (role.Established listener c → t.Does hasOnData c r) := by
  by_cases hlisten : role = .server ∧ c.fd = listener
  · refine .inr ⟨fun h => absurd hlisten h, t.accept e, ⟨false, false, false⟩, ?_, ?_, ?_⟩
    · simp [run, hc, hlisten]
    · intro p _ hnew
      rw [sends, if_pos hlisten]
      exact sends_accept hnew
    · obtain ⟨rfl, hfd⟩ := hlisten
      exact fun hest => absurd hfd hest
  · rcases testIn_spec hasOnData hc hwf with
      ⟨hin, hnever, htest⟩ | ⟨hcloses, e₁, htest, hsends⟩ |
        ⟨hends, hopen, e₁, c₁, htest, hc₁, hconn, hevent, hsends⟩
    · exact .inl ⟨fun h => hnever ((h hlisten).1 hin), by simp [run, hc, hlisten, htest]⟩
    · refine .inr ⟨fun _ => ⟨fun _ => hcloses.2.endsWithin, fun h => absurd hcloses h⟩,
        e₁, ⟨true, false, false⟩, by simp [run, hc, hlisten, htest], ?_, fun _ => ?_⟩
      · intro p hp _
        rw [sends, if_neg hlisten, if_pos hcloses]
        exact hsends p hp
      · exact ⟨fun _ => rfl, fun h => absurd hcloses h, fun h => absurd hcloses h,
          fun h => absurd hcloses h⟩
    · have hlast : t.sendsLast role c₁ =
          t.sendsLast role (c.setEvent (t.maskAfterIn hasOnData c)) := by
        rw [sendsLast, sendsLast, hevent, hconn]
        rfl
      rcases finish_spec t role hc₁ with
        ⟨hout, hest, hnever, hfinish⟩ | ⟨hwrites, e', wrote, closed, hfinish, hlater, hdoes⟩
      · rw [hevent] at hout
        rw [hconn] at hest
        exact .inl ⟨fun h => hnever ((h hlisten).2 hopen hout hest),
          by simp [run, hc, hlisten, htest, hc₁, hfinish]⟩
      · rw [hevent, hconn] at hwrites
        refine .inr ⟨fun _ => ⟨hends, fun _ => hwrites⟩, e', ⟨false, wrote, closed⟩,
          by simp [run, hc, hlisten, htest, hc₁, hfinish], ?_, fun hest => ?_⟩
        · intro p hp _
          rw [sends, if_neg hlisten, if_neg hopen, ← hlast]
          exact (hsends p hp).trans (hlater p hp)
        · have hest : role = .server ∨ c.connected = true := by
            cases role with
            | server => exact .inl rfl
            | client => exact .inr hest
          rw [hevent, hconn] at hdoes
          obtain ⟨hwrote, hclosed⟩ := hdoes hest
          exact ⟨fun h => absurd h hopen, fun _ => rfl, fun _ => hwrote, fun _ => hclosed⟩

/-- After an `onRead` that leaves the channel open, the turn writes if the sends of `onData_` have
    set `EPOLLOUT`, and finds no hang-up. -/
theorem Does.after_read (hr : t.Does hasOnData c r) (hin : c.event &&& EPOLLIN ≠ 0)
    (hopen : ¬ t.Closes c) : (r.wrote = true ↔ t.Rearms hasOnData c) ∧ r.closed = false := by
  constructor
  · rw [hr.writes hopen, maskAfterIn, if_pos hin]
    split
    · rename_i hrearms
      exact iff_of_true (by decide) hrearms
    · rename_i hnone
      exact iff_of_false (by decide) hnone
  · rw [← Bool.not_eq_true, hr.hangsUp hopen, maskAfterIn, if_pos hin]
    refine fun h => h.2 (no_hangUp ?_)
    split
    · exact .inr rfl
    · exact .inl rfl

/-- Which bits of the mask that epoll reported a turn acts on, when the channel still has it, or
    the mask that a send has set. -/
theorem actsOn_iff {m : EventMask} (hr : t.Does hasOnData c r)
    (hevent : c.event = m ∨ c.event = EPOLLIN ||| EPOLLOUT) :
    ActsOn m (some r) ↔ t.KeepsBits hasOnData c m := by
  simp only [ActsOn, Option.mem_some_iff, exists_eq_left', KeepsBits]
  by_cases hin : c.event &&& EPOLLIN ≠ 0
  · rw [if_pos hin]
    by_cases heof : TcpEndpoint.ReadsEof t.readErrno t.reads
    · have hclosed := hr.closes ⟨hin, heof⟩
      simp [hclosed, heof]
    · have hopen : ¬ t.Closes c := fun h => heof h.2
      have hread := hr.reads hopen
      obtain ⟨hwrote, hclosed⟩ := hr.after_read hin hopen
      simp only [hread, hwrote, hclosed, heof, Bool.false_eq_true, or_false, false_or]
      rw [and_comm]
      simp
  · have hopen : ¬ t.Closes c := fun h => hin h.1
    have hread := hr.reads hopen
    have hwrote := hr.writes hopen
    have hclosed := hr.hangsUp hopen
    rw [maskAfterIn, if_neg hin] at hwrote hclosed
    rw [if_neg hin]
    obtain rfl : c.event = m := by
      rcases hevent with hsame | hset
      · exact hsame
      · rw [hset] at hin
        exact absurd (by decide) hin
    simp only [hread, hwrote, hclosed, Bool.false_eq_true, or_false]
    constructor
    · rintro ⟨-, hclose⟩
      by_contra hboth
      obtain ⟨hhup, hout⟩ := not_or.mp hboth
      exact hout (hclose hhup).1
    · rintro (hhup | hout)
      · exact ⟨id, fun h => absurd hhup h⟩
      · exact ⟨id, fun h => ⟨hout, h⟩⟩

/-- A turn that is to act on nothing loses no bit. -/
theorem keepsBits_of_none {m : EventMask} (hout : m &&& EPOLLOUT = 0)
    (hhup : m &&& (EPOLLHUP ||| EPOLLRDHUP) = 0) : t.KeepsBits hasOnData c m := by
  rw [KeepsBits]
  split
  · exact .inr ⟨hhup, fun h => absurd hout h⟩
  · exact .inl hhup

/-- What is found of a channel: all but the mask and what is queued is as it was. -/
theorem found_kept (m : EventMask) (c : Channel) (S : List (Ptr × List UInt8)) (t : ChannelTurn) :
    (t.found m c S).fd = c.fd ∧ (t.found m c S).connected = c.connected ∧
      (t.found m c S).readbuf = c.readbuf :=
  Channel.afterSends_kept (c.setEvent m) _

theorem found_event (m : EventMask) (c : Channel) (S : List (Ptr × List UInt8)) (t : ChannelTurn) :
    (t.found m c S).event = m ∨ (t.found m c S).event = EPOLLIN ||| EPOLLOUT := by
  rw [found, Channel.afterSends_event]
  split
  · exact .inr rfl
  · exact .inl rfl

end ChannelTurn

/-! ## The round -/

namespace Endpoint

variable {role : Role} {listener : Fd} {hasOnData : Bool} {p : Ptr} {e e₁ : Endpoint} {c : Channel}
  {t : ChannelTurn} {r : Report} {m : EventMask} {batch : List (EventMask × ChannelTurn)}

theorem poll_heap_of_not_mem (h : p ∉ batch.map fun x => x.2.channel) :
    (e.poll batch).heap p = e.heap p := by
  induction batch generalizing e with
  | nil => rfl
  | cons x rest ih =>
    obtain ⟨m, t⟩ := x
    rw [List.map_cons, List.mem_cons, not_or] at h
    rw [poll]
    split
    · exact ih h.2
    · exact (ih h.2).trans (store_heap_of_ne h.1)

/-- Each channel of the batch gets the mask reported for it. -/
theorem poll_heap (hnodup : (batch.map fun x => x.2.channel).Nodup) (hx : (m, t) ∈ batch)
    (hc : e.heap t.channel = some c) : (e.poll batch).heap t.channel = some (c.setEvent m) := by
  induction batch generalizing e with
  | nil => cases hx
  | cons x rest ih =>
    rw [List.map_cons, List.nodup_cons] at hnodup
    rcases List.mem_cons.mp hx with rfl | hrest
    · rw [poll, hc]
      exact (poll_heap_of_not_mem hnodup.1).trans (store_heap_self _ _ _)
    · have hne : t.channel ≠ x.2.channel := by
        intro heq
        have hmem := List.mem_map_of_mem (f := fun x => x.2.channel) hrest
        exact hnodup.1 (heq ▸ hmem)
      rw [poll]
      split
      · exact ih hnodup.2 hrest hc
      · exact ih hnodup.2 hrest ((store_heap_of_ne hne).trans hc)

/-- The channels of the batch are as their turns find them, when `sent` is what the turns before
    have sent. -/
def Meets (e : Endpoint) (sent : List (Ptr × List UInt8)) (batch : List (EventMask × ChannelTurn))
    (e₁ : Endpoint) : Prop :=
  ∀ x ∈ batch, ∀ c, e.heap x.2.channel = some c →
    e₁.heap x.2.channel = some (x.2.found x.1 c sent)

theorem meets_poll (hnodup : (batch.map fun x => x.2.channel).Nodup) :
    Meets e [] batch (e.poll batch) := fun _ hx _ hc => poll_heap hnodup hx hc

/-- A turn adds its sends. -/
theorem Meets.step {sent S : List (Ptr × List UInt8)} {e₂ : Endpoint}
    (h : Meets e sent batch e₁) (hS : ∀ x ∈ batch, Sends x.2.channel S e₁ e₂) :
    Meets e (sent ++ S) batch e₂ := by
  intro x hx c hc
  have hsends := hS x hx
  rw [Sends, h x hx c hc] at hsends
  rw [hsends, ChannelTurn.found, ChannelTurn.found, messagesTo_append, Channel.afterSends_append]
  rfl

/-- A turn of the loop is reached and comes to its end exactly if the calls of all turns up to it
    return, and then it does what a turn does on the channel it finds. -/
theorem pollEvent_spec (hasOnData : Bool) {sent : List (Ptr × List UInt8)} {k : ℕ}
    (hnodup : (batch.map fun x => x.2.channel).Nodup)
    (hlive : ∀ x ∈ batch, ∃ c, e.heap x.2.channel = some c ∧ c.readbuf.WF)
    (hnew : batch.Pairwise fun x y => ∀ fd, x.2.accepted ≠ some (y.2.channel, fd))
    (hmeets : Meets e sent batch e₁) (hk : batch[k]? = some (m, t))
    (hc : e.heap t.channel = some c) (hest : role.Established listener c) :
    (((e₁.pollEvent role listener hasOnData (batch.map Prod.snd)).1[k]?).isSome ↔
        e.TurnsReturn role listener hasOnData sent (batch.take (k + 1))) ∧
      ∀ r, (e₁.pollEvent role listener hasOnData (batch.map Prod.snd)).1[k]? = some r →
        t.Does hasOnData
          (t.found m c (e.sentBy role listener hasOnData sent (batch.take k))) r := by
  induction batch generalizing e₁ sent k with
  | nil => cases hk
  | cons x rest ih =>
    obtain ⟨m', t'⟩ := x
    obtain ⟨⟨c', hc', hwf⟩, hlive⟩ := List.forall_mem_cons.mp hlive
    obtain ⟨hfresh, hnew⟩ := List.pairwise_cons.mp hnew
    obtain ⟨hfound, hmeets⟩ := List.forall_mem_cons.mp hmeets
    rw [List.map_cons, List.nodup_cons] at hnodup
    have hwf' : (t'.found m' c' sent).readbuf.WF := by
      rw [(ChannelTurn.found_kept m' c' sent t').2.2]
      exact hwf
    have hc' : e.heap t'.channel = some c' := hc'
    rw [List.map_cons, List.take_succ_cons, TurnsReturn, hc', pollEvent]
    dsimp only
    rcases ChannelTurn.run_spec role listener hasOnData (hfound c' hc') hwf' with
      ⟨hnever, hrun⟩ | ⟨hreturns, e₂, r', hrun, hsends, hdoes⟩
    · rw [hrun]
      refine ⟨iff_of_false (by simp) fun h => hnever h.1, fun r hr => ?_⟩
      cases hr
    · rw [hrun, and_iff_right hreturns]
      cases k with
      | zero =>
        obtain ⟨rfl, rfl⟩ : m' = m ∧ t' = t := Prod.mk.inj (Option.some.inj hk)
        obtain rfl := Option.some.inj (hc'.symm.trans hc)
        refine ⟨iff_of_true rfl trivial, fun r hr => ?_⟩
        obtain rfl : r' = r := Option.some.inj hr
        refine hdoes ?_
        obtain ⟨hfd, hconn, -⟩ := ChannelTurn.found_kept m' c' sent t'
        cases role with
        | server => exact fun h => hest (hfd.symm.trans h)
        | client => exact hconn.trans hest
      | succ k =>
        have hstep : Meets e (sent ++ t'.sends role listener hasOnData (t'.found m' c' sent))
            rest e₂ := by
          refine Meets.step hmeets fun x hx => hsends _ ?_ (hfresh x hx)
          intro heq
          have hmem := List.mem_map_of_mem (f := fun x => x.2.channel) hx
          exact hnodup.1 (heq ▸ hmem)
        have hrest := ih hnodup.2 hlive hnew hstep (k := k) hk
        rw [List.take_succ_cons, sentBy, hc']
        exact hrest

/-- For every batch of distinct channels and every connection in it, whatever the calls return and
    the callbacks send, if `accept` makes none of the channels whose turns are still to come: in its
    turn the server or the client runs `onWrite` if epoll reported `EPOLLOUT`, and closes the
    channel if epoll reported a hang-up, or has closed it before, if and only if the calls of all
    turns up to this one return, unless nothing of the kind was reported, and the mask in `event_`
    that the turn finds lets no bit get lost. -/
theorem round_actsOn_iff (role : Role) (listener : Fd) (hasOnData : Bool) (e : Endpoint)
    (batch : List (EventMask × ChannelTurn)) (k : ℕ) (m : EventMask) (t : ChannelTurn)
    (c : Channel) (hnodup : (batch.map fun x => x.2.channel).Nodup)
    (hlive : ∀ x ∈ batch, ∃ c, e.heap x.2.channel = some c ∧ c.readbuf.WF)
    (hnew : batch.Pairwise fun x y => ∀ fd, x.2.accepted ≠ some (y.2.channel, fd))
    (hk : batch[k]? = some (m, t)) (hc : e.heap t.channel = some c)
    (hest : role.Established listener c) :
    ActsOn m (e.round role listener hasOnData batch)[k]? ↔
      (m &&& EPOLLOUT ≠ 0 ∨ m &&& (EPOLLHUP ||| EPOLLRDHUP) ≠ 0 →
          e.TurnsReturn role listener hasOnData [] (batch.take (k + 1))) ∧
        t.KeepsBits hasOnData
          (t.found m c (e.sentBy role listener hasOnData [] (batch.take k))) m := by
  obtain ⟨hreached, hdoes⟩ :=
    pollEvent_spec hasOnData hnodup hlive hnew (meets_poll hnodup) hk hc hest
  rw [round]
  cases hr : ((e.poll batch).pollEvent role listener hasOnData (batch.map Prod.snd)).1[k]? with
  | none =>
    rw [hr] at hreached
    have hnever : ¬ e.TurnsReturn role listener hasOnData [] (batch.take (k + 1)) :=
      fun h => Bool.false_ne_true (hreached.mpr h)
    constructor
    · intro hacts
      have hout : m &&& EPOLLOUT = 0 := by
        by_contra h
        obtain ⟨r, hr, -⟩ := hacts.1 h
        cases hr
      have hhup : m &&& (EPOLLHUP ||| EPOLLRDHUP) = 0 := by
        by_contra h
        obtain ⟨r, hr, -⟩ := hacts.2 h
        cases hr
      exact ⟨fun h => absurd h (by simp [hout, hhup]), ChannelTurn.keepsBits_of_none hout hhup⟩
    · rintro ⟨hreturn, -⟩
      exact ⟨fun h => absurd (hreturn (.inl h)) hnever, fun h => absurd (hreturn (.inr h)) hnever⟩
  | some r =>
    rw [hr] at hreached
    rw [ChannelTurn.actsOn_iff (hdoes r hr) (ChannelTurn.found_event _ _ _ _)]
    exact (and_iff_right fun _ => hreached.mp rfl).symm

/-- Two connections, each with a byte to send. -/
def twoQueued : Endpoint :=
  (((empty.addChannel 0 5 EPOLLIN).addChannel 1 6 EPOLLIN).send 0 [65]).send 1 [66]

/-- A byte arrives and `onData_` takes it; the socket takes the byte queued, if it is asked to. -/
def quietTurn (p : Ptr) (sends : List (Ptr × List UInt8)) : ChannelTurn :=
  ⟨p, 0, [.data [67], .error EAGAIN], fun _ => .fresh _, sends, 0, [.count 1, .count 0], none, [],
    []⟩

theorem twoQueued_live {p : Ptr} (hp : p = 0 ∨ p = 1) :
    ∃ c, twoQueued.heap p = some c ∧ c.readbuf.WF := by
  rcases hp with rfl | rfl
  · exact ⟨_, rfl, FixedBuffer.wf_fresh Channel.kBufferSize_pos⟩
  · exact ⟨_, rfl, FixedBuffer.wf_fresh Channel.kBufferSize_pos⟩

/-- Epoll reports that the socket can be read and written, and `onData_` sends nothing. -/
theorem round_hides_out :
    ¬ ∀ (role : Role) (listener : Fd) (hasOnData : Bool) (e : Endpoint)
      (batch : List (EventMask × ChannelTurn)) (k : ℕ) (m : EventMask) (t : ChannelTurn)
      (c : Channel), (batch.map fun x => x.2.channel).Nodup →
      (∀ x ∈ batch, ∃ c, e.heap x.2.channel = some c ∧ c.readbuf.WF) →
      (batch.Pairwise fun x y => ∀ fd, x.2.accepted ≠ some (y.2.channel, fd)) →
      batch[k]? = some (m, t) → e.heap t.channel = some c → role.Established listener c →
      ActsOn m (e.round role listener hasOnData batch)[k]? := by
  intro h
  have hacts := h .server 3 true twoQueued [(EPOLLIN ||| EPOLLOUT, quietTurn 0 [])] 0 _ _ _
    (by decide) (by simpa [quietTurn] using twoQueued_live (.inl rfl))
    (List.pairwise_singleton _ _) rfl rfl (show 5 ≠ 3 by decide)
  have hround : (twoQueued.round .server 3 true [(EPOLLIN ||| EPOLLOUT, quietTurn 0 [])])[0]? =
      some ⟨false, false, false⟩ := rfl
  rw [hround] at hacts
  obtain ⟨r, hr, hwrote | hclosed⟩ := hacts.1 (by decide)
  · cases hr
    cases hwrote
  · cases hr
    cases hclosed

/-- The first connection answers what it reads, and the second can be written. -/
theorem round_writes :
    ActsOn EPOLLOUT (twoQueued.round .server 3 true
      [(EPOLLIN, quietTurn 0 [(0, [68])]), (EPOLLOUT, quietTurn 1 [])])[1]? := by
  refine (round_actsOn_iff .server 3 true twoQueued _ 1 EPOLLOUT (quietTurn 1 []) _ (by decide) ?_
    ?_ rfl rfl (show 6 ≠ 3 by decide)).mpr ⟨fun _ => ?_, ?_⟩
  · simpa [quietTurn] using ⟨twoQueued_live (.inl rfl), twoQueued_live (.inr rfl)⟩
  · simp [quietTurn]
  · show ChannelTurn.Returns _ _ _ _ _ ∧ ChannelTurn.Returns _ _ _ _ _ ∧ True
    exact ⟨by decide, by decide, trivial⟩
  · decide

end Endpoint

end Codechiev
