import Codechiev.Net.InputStream
import Codechiev.Net.Protobuf.SharedChannel

/-!
# An RPC connection from end to end

The two channels of an established connection, between a `ProtoClient` and a `ProtoServer`, with the
sockets in between. Threads call `CallMethod` at the one end and `Callback` at the other while the
loop threads run `onWrite`, in the steps of `SharedChannel`. Between two calls of `onWrite` a loop
thread runs `onRead`, which takes what has arrived, and `onData` decodes it. Other threads touch
neither the read buffer nor what is decoded from it, so that is one step. What the kernel promises
of a stream is all that is used of it: the bytes read at one end are the first ones written at the
other.

As long as no call comes between the header and the message of another or into the last iteration of
`onWrite`, and nothing on the way loses a byte (`Careful`), each end has decoded the first messages
of the other, in order and each once (`decoded_prefix`).
-/

namespace Codechiev

namespace TcpEndpoint

variable {p : Ptr} {io io' : ChannelCall}

@[simp] theorem send_readbuf (p : Ptr) (io : ChannelCall) (msg : List UInt8) :
    (send p io msg).channel.readbuf = io.channel.readbuf := by
  simp only [send, write]
  split <;> rfl

@[simp] theorem consume_readbuf (p : Ptr) (io : ChannelCall) (len : ℤ) :
    (consume p io len).channel.readbuf = io.channel.readbuf := by
  simp only [consume]
  split <;> rfl

@[simp] theorem rearm_readbuf (p : Ptr) (io : ChannelCall) :
    (rearm p io).channel.readbuf = io.channel.readbuf := by
  simp only [rearm]
  split
  · split <;> rfl
  · rfl

theorem onReadIter_sent (p : Ptr) (hasOnData : Bool) (io : ChannelCall) (r : ReadResult) :
    (onReadIter p hasOnData io r).1.sent = io.sent := by
  simp only [onReadIter]
  split
  · split
    · split <;> rfl
    · rfl
  · split <;> rfl

theorem onRead_sent {hasOnData : Bool} {script : List ReadResult} {exit : ReadExit}
    (hrun : onRead p hasOnData io script = some (io', exit)) : io'.sent = io.sent := by
  induction script generalizing io with
  | nil => cases hrun
  | cons r rs ih =>
    have hiter := onReadIter_sent p hasOnData io r
    rw [onRead_cons] at hrun
    split at hrun
    · rw [Option.some.injEq, Prod.mk.injEq] at hrun
      exact hrun.1 ▸ hiter
    · exact (ih hrun).trans hiter

end TcpEndpoint

/-- The ends of a connection. -/
inductive Side where
  | client
  | server
  deriving DecidableEq

def Side.peer : Side → Side
  | client => server
  | server => client

@[simp] theorem Side.peer_peer (a : Side) : a.peer.peer = a := by cases a <;> rfl

namespace SharedChannel

variable {τ : Type*} {p : Ptr} {c c' : SharedChannel τ} {l : CallStep τ}

theorem Step.readbuf (h : Step p c l c') :
    c'.io.channel.readbuf = c.io.channel.readbuf := by
  cases h with
  | header => rfl
  | body => exact TcpEndpoint.send_readbuf p _ _
  | size => rfl
  | write => rfl
  | consume => exact TcpEndpoint.consume_readbuf p _ _
  | rearm => exact TcpEndpoint.rearm_readbuf p _

/-- What the socket took stays taken. -/
theorem Step.sent_prefix (h : Step p c l c') : c.io.sent <+: c'.io.sent := by
  cases h with
  | header => exact List.prefix_rfl
  | body => simp only [TcpEndpoint.send_sent, List.prefix_refl]
  | size => exact List.prefix_rfl
  | write => exact List.prefix_append _ _
  | consume => simp only [TcpEndpoint.consume_sent, List.prefix_refl]
  | rearm => simp only [TcpEndpoint.rearm_sent, List.prefix_refl]

theorem sent_prefix_wire (c : SharedChannel τ) : c.io.sent <+: c.wire := by
  simp only [wire]
  split <;> exact List.prefix_append _ _

/-- A step leaves the bytes of the messages still to come, but for those of the call that it starts
    and those that it appends. -/
theorem outstanding_step (h : c.Framed) (hl : c.Careful l) (hstep : Step p c l c') :
    c.wire ++ (outstanding c.pending).flatten ++ (l.started.map lengthHeader.frame).flatten =
      c'.wire ++ (outstanding c'.pending).flatten := by
  rw [h.wire_step hstep]
  cases hstep with
  | @header t m hidle hnul hroom =>
    have hnone : outstanding c.pending = [] := outstanding_of_trivial hl.1
    have hnew : (outstanding ((t, m) :: c.pending)).flatten = m := by
      rcases eq_or_ne m [] with rfl | hm
      · rw [outstanding_cons_nil, hnone]
        rfl
      · rw [outstanding_cons t hm, hnone, List.flatten_singleton]
    rw [hnone, hnew]
    simp [CallStep.appended, CallStep.started, HeaderCode.frame]
  | @body t m l₁ l₂ hfree hpending hnul hroom =>
    have hold : (outstanding c.pending).flatten = m ++ (outstanding (l₁ ++ l₂)).flatten := by
      rw [hpending, outstanding_append, outstanding_append]
      rcases eq_or_ne m [] with rfl | hm
      · rfl
      · obtain ⟨hfirst, hlast⟩ := h.others_trivial hpending hm
        rw [outstanding_cons t hm, hfirst, hlast]
        simp
    rw [hold]
    simp [CallStep.appended, CallStep.started]
  | size | write | consume | rearm => simp [CallStep.appended, CallStep.started]

end SharedChannel

/-- The two channels, the bytes that `::read` has returned at each end, and a record of the messages
    that were sent and decoded there. -/
structure RpcConnection (τ : Type*) where
  ends : Side → SharedChannel τ
  received : Side → List UInt8
  sent : Side → List (List UInt8)
  decoded : Side → List (List UInt8)

/-- A step at one end: of a thread in `CallMethod` or `Callback` or of the loop thread in `onWrite`,
    or a call of `onRead` by the loop thread. -/
inductive ConnectionStep (τ : Type*) where
  | channel (a : Side) (l : CallStep τ)
  | onRead (a : Side) (errno : Errno) (script : List ReadResult)

namespace RpcConnection

variable {τ : Type*}

/-- Two new channels that have just been connected. -/
def new (τ : Type*) (fd : Side → Fd) (epoll : Side → EPoll) : RpcConnection τ where
  ends a := ⟨⟨.new (fd a), epoll a, 0, []⟩, .idle, [], []⟩
  received _ := []
  sent _ := []
  decoded _ := []

/-- The state of one end when `onRead` is entered there. -/
def entry (s : RpcConnection τ) (a : Side) (errno : Errno) : ChannelCall :=
  { (s.ends a).io with errno := errno }

/-- `onRead` leaves `io`, and `onData` decodes `ms`. -/
def afterRead (s : RpcConnection τ) (a : Side) (errno : Errno) (script : List ReadResult)
    (io : ChannelCall) (ms : List (List UInt8)) : RpcConnection τ :=
  { s with
    ends := Function.update s.ends a { s.ends a with io := io }
    received := Function.update s.received a (s.received a ++ TcpEndpoint.received errno script)
    decoded := Function.update s.decoded a (s.decoded a ++ ms) }

/-- What `::read` returns has been written at the other end, in this order. -/
def Arrives (s : RpcConnection τ) (a : Side) (errno : Errno) (script : List ReadResult) : Prop :=
  s.received a ++ TcpEndpoint.received errno script <+: (s.ends a.peer).io.sent

/-- The steps, with `p` the address of each channel. The connection stays open, so no `onRead`
    returns through `onClose`. -/
inductive Step (p : Side → Ptr) :
    RpcConnection τ → ConnectionStep τ → RpcConnection τ → Prop where
  | channel {s : RpcConnection τ} {a : Side} {l : CallStep τ} {c : SharedChannel τ}
      (hstep : SharedChannel.Step (p a) (s.ends a) l c) :
      Step p s (.channel a l)
        { s with
          ends := Function.update s.ends a c
          sent := Function.update s.sent a (s.sent a ++ l.started) }
  | waits {s : RpcConnection τ} {a : Side} {errno : Errno} {script : List ReadResult}
      {io : ChannelCall} (hfree : (s.ends a).loop = .idle) (hwire : s.Arrives a errno script)
      (hrun : TcpEndpoint.onRead (p a) true (s.entry a errno) script = some (io, .waiting)) :
      Step p s (.onRead a errno script) (s.afterRead a errno script io [])
  | delivers {s : RpcConnection τ} {a : Side} {errno : Errno} {script : List ReadResult}
      {io : ChannelCall} {ms : List (List UInt8)} {c : Channel}
      (hfree : (s.ends a).loop = .idle) (hwire : s.Arrives a errno script)
      (hrun : TcpEndpoint.onRead (p a) true (s.entry a errno) script = some (io, .delivering))
      (hdata : TcpLengthCoder.onData io.channel = some (ms, c)) :
      Step p s (.onRead a errno script) (s.afterRead a errno script { io with channel := c } ms)

/-- The runs of a connection from its establishment on. -/
def connectionRuns (τ : Type*) (p : Side → Ptr) :
    LabelledSystem (RpcConnection τ) (ConnectionStep τ) where
  init s := ∃ fd epoll, s = new τ fd epoll
  step := Step p

/-- The frame of a message has room when its header is appended. -/
def Fits (c : SharedChannel τ) : CallStep τ → Prop
  | .header _ m => (4 + m.length : ℤ) ≤ c.io.channel.writebuf.writable
  | _ => True

/-- Headers are appended carefully and their frames have room, and the read buffer has room for what
    `onRead` receives. -/
def Careful (s : RpcConnection τ) : ConnectionStep τ → Prop
  | .channel a l => (s.ends a).Careful l ∧ Fits (s.ends a) l
  | .onRead a errno script =>
      ((TcpEndpoint.received errno script).length : ℤ) ≤ (s.ends a).io.channel.readbuf.writable

/-- The other end has no call under way, and everything queued there has been written there and read
    here. -/
def Settled (s : RpcConnection τ) (a : Side) : Prop :=
  (s.ends a.peer).pending = [] ∧ (s.ends a.peer).io.channel.writebuf.content = [] ∧
    s.received a = (s.ends a.peer).io.sent

/-- One end: its stream and the messages still to come are the frames of its messages, and what it
    received are the frames it decoded and then part of a frame, which is in the read buffer. -/
structure IntactEnd (c : SharedChannel τ) (received : List UInt8)
    (sent decoded : List (List UInt8)) : Prop where
  framed : c.Framed
  readbuf : c.io.channel.readbuf.WF
  short : ∀ m ∈ sent, m.length < TcpLengthCoder.wrapBound
  queued : c.wire ++ (SharedChannel.outstanding c.pending).flatten =
    (sent.map lengthHeader.frame).flatten
  parsed : (decoded.map lengthHeader.frame).flatten ++ c.io.channel.readbuf.content = received
  held : lengthHeader.takeFrame c.io.channel.readbuf.content = none

namespace IntactEnd

variable {p : Ptr} {c c' : SharedChannel τ} {io : ChannelCall} {received : List UInt8}
  {sent decoded : List (List UInt8)} {errno : Errno} {script : List ReadResult}

theorem new (fd : Fd) (epoll : EPoll) :
    IntactEnd (⟨⟨.new fd, epoll, 0, []⟩, .idle, [], []⟩ : SharedChannel τ) [] [] [] := by
  have hwf := FixedBuffer.wf_fresh Channel.kBufferSize_pos
  have hempty : (FixedBuffer.fresh kBufferSize).content = [] := FixedBuffer.content_fresh
  refine ⟨.start hwf hempty rfl rfl rfl rfl, hwf, nofun, ?_, hempty, congrArg _ hempty⟩
  exact (List.append_nil _).trans hempty

/-- A step of a call or of `onWrite`. -/
theorem channel {l : CallStep τ} (h : IntactEnd c received sent decoded) (hl : c.Careful l)
    (hfits : Fits c l) (hstep : SharedChannel.Step p c l c') :
    IntactEnd c' received (sent ++ l.started) decoded := by
  have hread := hstep.readbuf
  refine ⟨h.framed.step hl hstep, hread ▸ h.readbuf, ?_, ?_, hread ▸ h.parsed, hread ▸ h.held⟩
  · have hwriter := h.framed.wf.reader_nonneg.trans h.framed.wf.reader_le
    rw [List.forall_mem_append]
    refine ⟨h.short, ?_⟩
    cases l with
    | header t m =>
      have hfits : (4 + m.length : ℤ) ≤ c.io.channel.writebuf.writable := hfits
      simp only [FixedBuffer.writable, kBufferSize] at hfits
      simp only [CallStep.started, List.forall_mem_singleton, TcpLengthCoder.wrapBound]
      omega
    | body | size | write | consume | rearm =>
      exact fun _ hm => absurd hm List.not_mem_nil
  · rw [← SharedChannel.outstanding_step h.framed hl hstep, h.queued, List.map_append,
      List.flatten_append]

/-- What a call of `onRead` leaves when the read buffer has room for all of it. -/
theorem onRead {exit : ReadExit} (h : IntactEnd c received sent decoded)
    (hroom : ((TcpEndpoint.received errno script).length : ℤ) ≤ c.io.channel.readbuf.writable)
    (hrun : TcpEndpoint.onRead p true { c.io with errno := errno } script = some (io, exit)) :
    io.channel.readbuf.WF ∧ io.channel.writebuf = c.io.channel.writebuf ∧ io.sent = c.io.sent ∧
      (decoded.map lengthHeader.frame).flatten ++ io.channel.readbuf.content =
        received ++ TcpEndpoint.received errno script := by
  have hentry : ({ c.io with errno := errno } : ChannelCall).channel.readbuf.WF := h.readbuf
  obtain ⟨hwf, hcontent⟩ := TcpEndpoint.content_onRead hentry hrun
  have hsent := TcpEndpoint.onRead_sent hrun
  refine ⟨hwf, (TcpEndpoint.onRead_local hrun).2, hsent, ?_⟩
  have happended : TcpEndpoint.appended c.io.channel.readbuf errno script =
      TcpEndpoint.received errno script := by
    rw [TcpEndpoint.appended_eq_take, List.take_of_length_le (by omega)]
  rw [hcontent, happended, ← List.append_assoc, h.parsed]

/-- A call of `onRead` touches nothing that the calls and `onWrite` work on. -/
theorem replace (h : IntactEnd c received sent decoded)
    (hwrite : io.channel.writebuf = c.io.channel.writebuf) (hsent : io.sent = c.io.sent)
    {received' : List UInt8} {decoded' : List (List UInt8)} (hwf : io.channel.readbuf.WF)
    (hparsed : (decoded'.map lengthHeader.frame).flatten ++ io.channel.readbuf.content = received')
    (hheld : lengthHeader.takeFrame io.channel.readbuf.content = none) :
    IntactEnd { c with io := io } received' sent decoded' := by
  refine ⟨h.framed.setIo hwrite hsent, hwf, h.short, ?_, hparsed, hheld⟩
  rw [SharedChannel.wire_setIo hwrite hsent]
  exact h.queued

/-- `onRead` returns without a call of `onData` only if it leaves nothing to present. -/
theorem waits (h : IntactEnd c received sent decoded)
    (hroom : ((TcpEndpoint.received errno script).length : ℤ) ≤ c.io.channel.readbuf.writable)
    (hrun : TcpEndpoint.onRead p true { c.io with errno := errno } script = some (io, .waiting)) :
    IntactEnd { c with io := io } (received ++ TcpEndpoint.received errno script) sent
      (decoded ++ []) := by
  obtain ⟨hwf, hwrite, hsent, hparsed⟩ := h.onRead hroom hrun
  have hempty : io.channel.readbuf.content = [] := by
    rcases TcpEndpoint.exit_onRead hrun with hexit | ⟨hexit, -⟩ | ⟨-, hnone⟩
    · cases hexit
    · cases hexit
    · simp only [true_and, not_not] at hnone
      exact FixedBuffer.content_eq_nil hnone.le
  rw [List.append_nil]
  exact h.replace hwrite hsent hwf hparsed (hempty ▸ rfl)

/-- The complete frames that the other end sent are decoded. -/
theorem delivers {ms ns : List (List UInt8)} {ch : Channel}
    (h : IntactEnd c received sent decoded)
    (hroom : ((TcpEndpoint.received errno script).length : ℤ) ≤ c.io.channel.readbuf.writable)
    (hrun : TcpEndpoint.onRead p true { c.io with errno := errno } script =
      some (io, .delivering))
    (hdata : TcpLengthCoder.onData io.channel = some (ms, ch)) (hdecoded : decoded <+: ns)
    (hns : ∀ n ∈ ns, n.length < TcpLengthCoder.wrapBound)
    (hwire : received ++ TcpEndpoint.received errno script <+:
      (ns.map lengthHeader.frame).flatten) :
    IntactEnd { c with io := { io with channel := ch } }
      (received ++ TcpEndpoint.received errno script) sent (decoded ++ ms) ∧
        decoded ++ ms <+: ns := by
  obtain ⟨hwf, hwrite, hsent, hparsed⟩ := h.onRead hroom hrun
  have hlimit : ∀ n ∈ ns, n.length < lengthHeader.limit :=
    fun n hn => (hns n hn).trans (by decide)
  -- the read buffer holds the first bytes of a stream of frames, so no header in it wraps
  rw [← hparsed] at hwire
  obtain ⟨ls, rfl, zs, hzs⟩ :=
    lengthHeader.frames_prefix (fun m hm => hlimit m (hdecoded.subset hm)) hlimit hwire
  have hbelow := lengthHeader.headersBelow_frames fun m (hm : m ∈ ls) =>
    have hmem := List.mem_append_right decoded hm
    ⟨hlimit m hmem, hns m hmem⟩
  have hall := lengthHeader.drain_frames fun m (hm : m ∈ ls) =>
    hlimit m (List.mem_append_right decoded hm)
  rw [← hzs] at hbelow hall
  obtain ⟨rbuf, hrbuf, hleft, hdrain⟩ := TcpLengthCoder.onData_eq_drain hwf (hbelow.of_append zs)
  rw [hdata, Option.some.injEq, Prod.mk.injEq] at hdrain
  obtain ⟨rfl, rfl⟩ := hdrain
  rw [lengthHeader.decoder.drain_append, Prod.mk.injEq] at hall
  refine ⟨h.replace ?_ ?_ ?_ ?_ ?_, ?_⟩
  · exact hwrite
  · exact hsent
  · exact hrbuf
  · rw [← hparsed, List.map_append, List.flatten_append, List.append_assoc]
    congr 1
    show _ ++ rbuf.content = _
    rw [hleft]
    apply lengthHeader.decoder.flatten_drain
    intro xs m ys hstep
    exact lengthHeader.frame_takeFrame (fun hlen => lengthHeader_write_read hlen) hstep
  · show lengthHeader.takeFrame rbuf.content = none
    rw [hleft]
    exact lengthHeader.decoder.step_drain _
  · rw [← hall.1, ← List.append_assoc]
    exact List.prefix_append _ _

end IntactEnd

/-- Both ends are intact, what one received is what the other wrote first, and what it decoded is
    what the other sent first. -/
structure Intact (s : RpcConnection τ) : Prop where
  ends : ∀ a, IntactEnd (s.ends a) (s.received a) (s.sent a) (s.decoded a)
  arrived : ∀ a, s.received a <+: (s.ends a.peer).io.sent
  ordered : ∀ a, s.decoded a <+: s.sent a.peer

namespace Intact

variable {p : Side → Ptr} {s s' : RpcConnection τ} {a : Side} {l : ConnectionStep τ}

theorem new (fd : Side → Fd) (epoll : Side → EPoll) : (new τ fd epoll).Intact :=
  ⟨fun a => .new (fd a) (epoll a), fun _ => List.nil_prefix, fun _ => List.nil_prefix⟩

/-- The bytes received at one end are the first ones of the other end's frames. -/
theorem received_prefix (h : s.Intact) {errno : Errno} {script : List ReadResult}
    (hwire : s.Arrives a errno script) :
    s.received a ++ TcpEndpoint.received errno script <+:
      ((s.sent a.peer).map lengthHeader.frame).flatten := by
  rw [← (h.ends a.peer).queued]
  exact (hwire.trans (SharedChannel.sent_prefix_wire _)).trans (List.prefix_append _ _)

/-- One end changes, and its socket and its record of messages keep what they had. -/
theorem replace {c : SharedChannel τ} {received : List UInt8} {sent decoded : List (List UInt8)}
    (h : s.Intact) (hend : IntactEnd c received sent decoded)
    (hio : (s.ends a).io.sent <+: c.io.sent) (hsent : s.sent a <+: sent)
    (hreceived : received <+: (s.ends a.peer).io.sent) (hdecoded : decoded <+: s.sent a.peer) :
    Intact (⟨Function.update s.ends a c, Function.update s.received a received,
      Function.update s.sent a sent, Function.update s.decoded a decoded⟩ : RpcConnection τ) := by
  have hne : a.peer ≠ a := by cases a <;> decide
  refine ⟨fun b => ?_, fun b => ?_, fun b => ?_⟩
  · by_cases hb : b = a
    · subst hb
      simpa only [Function.update_self] using hend
    · simpa only [Function.update_of_ne hb] using h.ends b
  · show Function.update s.received a received b <+: (Function.update s.ends a c b.peer).io.sent
    by_cases hb : b = a
    · subst hb
      rw [Function.update_self, Function.update_of_ne hne]
      exact hreceived
    · obtain rfl : b.peer = a := by revert hb; cases a <;> cases b <;> decide
      rw [Function.update_self, Function.update_of_ne hb]
      exact (h.arrived b).trans hio
  · show Function.update s.decoded a decoded b <+: Function.update s.sent a sent b.peer
    by_cases hb : b = a
    · subst hb
      rw [Function.update_self, Function.update_of_ne hne]
      exact hdecoded
    · obtain rfl : b.peer = a := by revert hb; cases a <;> cases b <;> decide
      rw [Function.update_self, Function.update_of_ne hb]
      exact (h.ordered b).trans hsent

theorem channel {l : CallStep τ} {c : SharedChannel τ} (h : s.Intact)
    (hl : s.Careful (.channel a l)) (hstep : SharedChannel.Step (p a) (s.ends a) l c) :
    Intact { s with
      ends := Function.update s.ends a c
      sent := Function.update s.sent a (s.sent a ++ l.started) } := by
  have hnew := h.replace ((h.ends a).channel hl.1 hl.2 hstep) hstep.sent_prefix
    (List.prefix_append _ _) (h.arrived a) (h.ordered a)
  simpa only [Function.update_eq_self] using hnew

/-- One end has received and decoded more. -/
theorem afterRead {io : ChannelCall} {errno : Errno} {script : List ReadResult}
    {ms : List (List UInt8)} (h : s.Intact) (hwire : s.Arrives a errno script)
    (hend : IntactEnd { s.ends a with io := io }
      (s.received a ++ TcpEndpoint.received errno script) (s.sent a) (s.decoded a ++ ms))
    (hio : io.sent = (s.ends a).io.sent) (hordered : s.decoded a ++ ms <+: s.sent a.peer) :
    (s.afterRead a errno script io ms).Intact := by
  have hnew := h.replace hend (hio ▸ List.prefix_rfl) List.prefix_rfl hwire hordered
  simpa only [RpcConnection.afterRead, Function.update_eq_self] using hnew

theorem step (h : s.Intact) (hl : s.Careful l) (hstep : Step p s l s') : s'.Intact := by
  cases hstep with
  | channel hstep => exact h.channel hl hstep
  | @waits a errno script io hfree hwire hrun =>
    have hsent := TcpEndpoint.onRead_sent hrun
    refine h.afterRead hwire ((h.ends a).waits hl hrun) hsent ?_
    rw [List.append_nil]
    exact h.ordered a
  | @delivers a errno script io ms c hfree hwire hrun hdata =>
    obtain ⟨hend, hordered⟩ := (h.ends a).delivers hl hrun hdata (h.ordered a)
      (h.ends a.peer).short (h.received_prefix hwire)
    have hsent := TcpEndpoint.onRead_sent hrun
    exact h.afterRead hwire hend hsent hordered

/-- Once everything has arrived, everything is decoded. -/
theorem decoded_of_settled (h : s.Intact) (hsettled : s.Settled a) :
    s.decoded a = s.sent a.peer := by
  obtain ⟨hpending, hcontent, hreceived⟩ := hsettled
  obtain ⟨ls, hls⟩ := h.ordered a
  have hbytes := (h.ends a.peer).queued
  rw [hpending, SharedChannel.wire_of_content_nil hcontent, ← hreceived, ← (h.ends a).parsed,
    ← hls, List.map_append, List.flatten_append] at hbytes
  have hleft := List.append_cancel_left ((List.append_nil _).symm.trans hbytes)
  cases ls with
  | nil => rw [← hls, List.append_nil]
  | cons m ls =>
    -- a frame that is complete would have been taken
    have hmem : m ∈ s.sent a.peer := hls ▸ List.mem_append_right _ List.mem_cons_self
    have hlt : m.length < lengthHeader.limit :=
      ((h.ends a.peer).short m hmem).trans (by decide)
    have hheld := (h.ends a).held
    rw [hleft, List.map_cons, List.flatten_cons, lengthHeader.takeFrame_frame hlt] at hheld
    cases hheld

end Intact

/-- Nothing has gone wrong in a run of careful steps. -/
theorem intact_of_careful {p : Side → Ptr} {s : RpcConnection τ}
    (h : ((connectionRuns τ p).under Careful).Reachable s) : s.Intact := by
  refine h.invariant (I := Intact) ?_ ?_
  · rintro s ⟨fd, epoll, rfl⟩
    exact .new fd epoll
  · rintro s l s' - hs ⟨hl, hstep⟩
    exact hs.step hl hstep

/-- In every run in which messages hold no zero byte, what is appended has room and no `::write`
    fails; in which a header is appended when no other call at that end has bytes of its message
    still to come, and not in an iteration of `onWrite` that found the buffer empty and has yet to
    clear it; and in which the read buffers have room for what arrives: whatever the order of the
    steps, however many bytes each `::write` takes and each `::read` returns, each end has decoded
    the first messages of the other end, in order, and all of them once everything queued has
    arrived. -/
theorem decoded_prefix (τ : Type*) (p : Side → Ptr) (s : RpcConnection τ)
    (h : ((connectionRuns τ p).under Careful).Reachable s) (a : Side) :
    s.decoded a <+: s.sent a.peer ∧ (s.Settled a → s.decoded a = s.sent a.peer) :=
  have hintact := intact_of_careful h
  ⟨hintact.ordered a, hintact.decoded_of_settled⟩

theorem careful_step {p : Side → Ptr} {s s' : RpcConnection τ} {l : ConnectionStep τ}
    (h : ((connectionRuns τ p).under Careful).Reachable s) (hl : s.Careful l)
    (hstep : Step p s l s') : ((connectionRuns τ p).under Careful).Reachable s' :=
  .next l h ⟨hl, hstep⟩

/-- A call reaches the server, while a second one, whose header came into the iteration that writes
    the first, is still to be written. -/
theorem twoCalls_reachable : ∃ s, ((connectionRuns Bool fun _ => 0).under Careful).Reachable s ∧
    s.sent .client = [[65], [66]] ∧ s.decoded .server = [[65]] := by
  have hroom : (5 : ℤ) ≤ (FixedBuffer.fresh kBufferSize).writable := by decide
  have hnew : ((connectionRuns Bool fun _ => 0).under Careful).Reachable
      (new Bool (fun _ => 5) fun _ _ => none) := .start ⟨_, _, rfl⟩
  have hheader := careful_step (l := .channel .client (.header false [65])) hnew
    ⟨⟨nofun, by decide, by decide⟩, hroom⟩
    (.channel (.header List.not_mem_nil (by decide) (by decide)))
  have hbody := careful_step (l := .channel .client (.body false [65])) hheader ⟨trivial, trivial⟩
    (.channel (.body rfl (show _ = [] ++ (false, [65]) :: [] from rfl) (by decide) (by decide)))
  have hsize := careful_step (l := .channel .client (.size 0)) hbody ⟨trivial, trivial⟩
    (.channel (.size rfl))
  have hwrite := careful_step (l := .channel .client (.write 5)) hsize ⟨trivial, trivial⟩
    (.channel (.write rfl (by decide)))
  have hsecond := careful_step (l := .channel .client (.header true [66])) hwrite
    ⟨⟨nofun, by decide, by decide⟩, show (5 : ℤ) ≤ FixedBuffer.writable _ by decide⟩
    (.channel (.header List.not_mem_nil (by decide) (by decide)))
  have hconsume := careful_step (l := .channel .client .consume) hsecond ⟨trivial, trivial⟩
    (.channel (.consume rfl))
  have hread := careful_step (l := .onRead .server 0 [.data [0, 0, 0, 1, 65], .error EAGAIN])
    hconsume hroom (.delivers rfl List.prefix_rfl rfl rfl)
  exact ⟨_, hread, rfl, rfl⟩

theorem decoded_two_calls : ∃ s : RpcConnection Bool, s.sent .client = [[65], [66]] ∧
    s.decoded .server = [[65]] ∧ s.decoded .server <+: s.sent .client ∧
      (s.Settled .server → s.decoded .server = s.sent .client) := by
  obtain ⟨s, hreach, hsent, hdecoded⟩ := twoCalls_reachable
  exact ⟨s, hsent, hdecoded, decoded_prefix Bool (fun _ => 0) s hreach .server⟩

end RpcConnection

end Codechiev
