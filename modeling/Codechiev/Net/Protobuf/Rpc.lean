import Codechiev.Net.OutputStream
import Codechiev.Net.TcpLengthCoder

/-!
# `PbRpcChannel`

`CallMethod` and `Callback` send one framed message each: the header goes into the write buffer
with its length, the serialized message through `TcpEndpoint::send`, which stops at the first
zero byte. What protobuf serializes is an arbitrary byte string here. The frames that one side
queues are what the other side decodes, for every way of cutting the bytes into chunks, exactly
when no message holds a zero byte (`rpc_roundTrip_iff`).
-/

namespace Codechiev

namespace PbRpcChannel

/-- What `CallMethod` and `Callback` do with a locked channel and a serialized message. -/
def sendFrame (p : Ptr) (io : ChannelCall) (serialized : List UInt8) : ChannelCall :=
  TcpEndpoint.send p
    { io with channel := TcpLengthCoder.AppendInt32 io.channel serialized.length } serialized

def CallMethod (p : Ptr) (io : ChannelCall) (serialized : List UInt8) : ChannelCall :=
  sendFrame p io serialized

def Callback (p : Ptr) (io : ChannelCall) (serialized : List UInt8) : ChannelCall :=
  sendFrame p io serialized

/-- One use of a `PbRpcChannel`, with the message as it is serialized. -/
inductive Call where
  | callMethod (serialized : List UInt8)
  | callback (serialized : List UInt8)

def Call.serialized : Call → List UInt8
  | callMethod m => m
  | callback m => m

def Call.run (p : Ptr) (io : ChannelCall) : Call → ChannelCall
  | callMethod m => CallMethod p io m
  | callback m => Callback p io m

/-- Calls made one after the other. -/
def sendAll (p : Ptr) (io : ChannelCall) (calls : List Call) : ChannelCall :=
  calls.foldl (Call.run p) io

/-- The bytes a call queues: the length of the whole message, then the message up to its first
    zero byte. -/
def queued (m : List UInt8) : List UInt8 := lengthHeader.write m.length ++ m.take (strlen m)

theorem Call.run_eq (p : Ptr) (io : ChannelCall) (call : Call) :
    call.run p io = sendFrame p io call.serialized := by
  cases call <;> rfl

theorem queued_length (m : List UInt8) : (queued m).length = 4 + strlen m := by
  have := strlen_le m
  rw [queued, List.length_append, lengthHeader.write_length, List.length_take]
  change 4 + _ = _
  omega

theorem queued_of_no_nul {m : List UInt8} (h : 0 ∉ m) : queued m = lengthHeader.frame m := by
  rw [queued, strlen_of_no_nul h, List.take_length, HeaderCode.frame]

/-! ## What is queued -/

variable {p : Ptr} {io : ChannelCall}

/-- A call with room for its frame queues the header and the message as far as `strlen` sees
    it. -/
theorem sendFrame_writebuf {m : List UInt8} (hio : io.channel.writebuf.WF)
    (hfits : (4 + m.length : ℤ) ≤ io.channel.writebuf.writable) :
    (sendFrame p io m).channel.writebuf.WF ∧
      (sendFrame p io m).channel.writebuf.content = io.channel.writebuf.content ++ queued m ∧
      (sendFrame p io m).channel.writebuf.writable =
        io.channel.writebuf.writable - (queued m).length := by
  have hw := hio.reader_nonneg.trans hio.reader_le
  have hstr := strlen_le m
  have hlen : strlen m < 2147483648 := by
    simp only [FixedBuffer.writable, kBufferSize] at hfits; omega
  obtain ⟨hwf, hcontent, hfree⟩ :=
    TcpLengthCoder.AppendInt32_writebuf m.length hio (by omega)
  set c := TcpLengthCoder.AppendInt32 io.channel m.length with hc
  have hbuf : (sendFrame p io m).channel.writebuf = (c.writebuf.append m (strlen m : ℕ)).1 := by
    rw [sendFrame, TcpEndpoint.send_writebuf, ← castInt_of_lt hlen]
    rfl
  rw [hbuf, queued_length]
  refine ⟨hwf.append _ _, ?_, ?_⟩
  · rw [FixedBuffer.content_append_of_fits hwf m hstr (by omega), hcontent, List.append_assoc]
    rfl
  · rw [FixedBuffer.writable_append, hfree]
    simp only [FixedBuffer.taken]
    omega

/-- The messages of a list of calls, in order. -/
def messages (calls : List Call) : List (List UInt8) := calls.map Call.serialized

/-- The frames of all the messages have room in the write buffer. -/
def FramesFit (io : ChannelCall) (calls : List Call) : Prop :=
  (((messages calls).map lengthHeader.frame).flatten.length : ℤ) ≤ io.channel.writebuf.writable

instance (io : ChannelCall) (calls : List Call) : Decidable (FramesFit io calls) :=
  inferInstanceAs (Decidable (_ ≤ _))

theorem queued_length_le (m : List UInt8) :
    (queued m).length ≤ (lengthHeader.frame m).length := by
  have := strlen_le m
  rw [queued_length, HeaderCode.frame_length]
  change _ ≤ 4 + _
  omega

/-- Calls whose frames all fit queue their bytes one after the other. -/
theorem sendAll_writebuf (io : ChannelCall) {calls : List Call} (hio : io.channel.writebuf.WF)
    (hfits : FramesFit io calls) :
    (sendAll p io calls).channel.writebuf.content =
      io.channel.writebuf.content ++ ((messages calls).map queued).flatten := by
  induction calls generalizing io with
  | nil => simp [sendAll, messages]
  | cons call rest ih =>
    have hle := queued_length_le call.serialized
    have hframe : (lengthHeader.frame call.serialized).length = 4 + call.serialized.length :=
      lengthHeader.frame_length _
    simp only [FramesFit, messages, List.map_cons, List.flatten_cons, List.length_append,
      Nat.cast_add] at hfits ih
    obtain ⟨hwf, hcontent, hfree⟩ :=
      sendFrame_writebuf (p := p) (m := call.serialized) hio (by omega)
    have hrest := ih (call.run p io) (by rw [call.run_eq]; exact hwf)
      (by rw [call.run_eq, hfree]; omega)
    rw [sendAll, List.foldl_cons]
    rw [sendAll] at hrest
    rw [hrest, call.run_eq, hcontent, messages, List.map_cons, List.map_cons, List.flatten_cons,
      List.append_assoc]

/-! ## Round trip -/

/-- The messages decoded are exactly `ms`, in order, and nothing is left over. -/
def DeliversExactly (peer : Channel) (chunks : List (List UInt8)) (ms : List (List UInt8)) :
    Prop :=
  ∃ peer', TcpLengthCoder.receive peer chunks = some (ms, peer') ∧ peer'.readbuf.content = []

theorem queued_flatten_length_le (ms : List (List UInt8)) :
    (ms.map queued).flatten.length ≤ (ms.map lengthHeader.frame).flatten.length := by
  induction ms with
  | nil => simp
  | cons m ms ih =>
    have := queued_length_le m
    simp only [List.map_cons, List.flatten_cons, List.length_append]
    omega

/-- Messages whose queued bytes are as many as their frames hold no zero byte. -/
theorem no_nul_of_queued_length {ms : List (List UInt8)}
    (h : (ms.map queued).flatten.length = (ms.map lengthHeader.frame).flatten.length) :
    ∀ m ∈ ms, 0 ∉ m := by
  induction ms with
  | nil => simp
  | cons m ms ih =>
    have hle := queued_flatten_length_le ms
    have hm := queued_length_le m
    simp only [List.map_cons, List.flatten_cons, List.length_append] at h
    intro m' hm'
    rcases List.mem_cons.mp hm' with rfl | hm'
    · intro hnul
      have hlt := strlen_lt_of_nul hnul
      have hq := queued_length m'
      have hf : (lengthHeader.frame m').length = 4 + m'.length := lengthHeader.frame_length _
      omega
    · exact ih (by omega) m' hm'

/-- A message whose frame fits is far below the lengths that wrap. -/
theorem length_lt_of_framesFit {calls : List Call} (hio : io.channel.writebuf.WF)
    (hfits : FramesFit io calls) {m : List UInt8} (hm : m ∈ messages calls) :
    m.length < TcpLengthCoder.wrapBound := by
  have hsub := (List.sublist_flatten_of_mem
    (List.mem_map_of_mem (f := lengthHeader.frame) hm)).length_le
  rw [HeaderCode.frame_length] at hsub
  have hw := hio.reader_nonneg.trans hio.reader_le
  simp only [FramesFit, FixedBuffer.writable, kBufferSize] at hfits
  simp only [TcpLengthCoder.wrapBound]
  omega

/-- One chunk that an empty channel takes whole: the frames decoded from it account for all of its
    bytes, but for those that are left. -/
theorem receive_single_length {peer : Channel} {stream : List UInt8} {ms : List (List UInt8)}
    (hwf : peer.readbuf.WF) (hempty : peer.readbuf.content = [])
    (hroom : (stream.length : ℤ) ≤ peer.readbuf.writable)
    (h : DeliversExactly peer [stream] ms) :
    stream.length = (ms.map lengthHeader.frame).flatten.length := by
  obtain ⟨peer', hrec, hleft⟩ := h
  have hcontent := FixedBuffer.content_append_of_fits hwf stream le_rfl hroom
  rw [hempty, List.nil_append, List.take_length] at hcontent
  simp only [TcpLengthCoder.receive, TcpLengthCoder.receiveChunk] at hrec
  split at hrec
  · simp at hrec
  · rename_i ms' c' hdata
    simp only [Option.map_some, List.append_nil, Option.some.injEq, Prod.mk.injEq] at hrec
    obtain ⟨rfl, rfl⟩ := hrec
    have hlen := TcpLengthCoder.decodeLoop_length (hwf.append _ _) hdata
    simpa [hcontent, hleft] using hlen

/-- A list of calls is made on a channel with an empty write buffer that has room for all their
    frames, and the queued bytes reach a channel whose read buffer is empty, as `onData` leaves it.
    The messages decoded there are exactly the messages sent, for every way of cutting the bytes
    into chunks that the read buffer takes, if and only if no message holds a zero byte. -/
theorem rpc_roundTrip_iff (p : Ptr) (io : ChannelCall) (calls : List Call) (peer : Channel)
    (hio : io.channel.writebuf.WF) (hempty : io.channel.writebuf.content = [])
    (hfits : FramesFit io calls) (hpeer : peer.readbuf.WF) (hstart : peer.readbuf.writer = 0) :
    (∀ chunks, chunks.flatten = (sendAll p io calls).channel.writebuf.content →
        TcpLengthCoder.NoOverflow peer chunks →
        DeliversExactly peer chunks (messages calls)) ↔
      ∀ m ∈ messages calls, 0 ∉ m := by
  have hstream := sendAll_writebuf (p := p) io hio hfits
  rw [hempty, List.nil_append] at hstream
  have hnothing : peer.readbuf.content = [] := by
    have hreader := hpeer.reader_nonneg
    exact FixedBuffer.content_eq_nil (by simp only [FixedBuffer.readable]; omega)
  constructor
  · -- one chunk is enough: frames are as long as their headers say, what is queued may be shorter
    intro hall
    set stream := ((messages calls).map queued).flatten with hdef
    have hroom : (stream.length : ℤ) ≤ peer.readbuf.writable := by
      have hle : stream.length ≤ _ := queued_flatten_length_le (messages calls)
      have hw := hio.reader_nonneg.trans hio.reader_le
      simp only [FramesFit, FixedBuffer.writable] at hfits
      simp only [FixedBuffer.writable]
      omega
    have hdeliver := hall [stream] (by rw [hstream]; simp) ⟨hroom, fun _ _ _ => trivial⟩
    exact no_nul_of_queued_length (receive_single_length hpeer hnothing hroom hdeliver)
  · -- without zero bytes the frames themselves are queued, and the cut does not matter
    intro hnul chunks hchunks hfit
    have hlt : ∀ m ∈ messages calls, m.length < lengthHeader.limit := fun m hm =>
      (length_lt_of_framesFit hio hfits hm).trans (by decide)
    have hframes : (messages calls).map queued = (messages calls).map lengthHeader.frame :=
      List.map_congr_left fun m hm => queued_of_no_nul (hnul m hm)
    have hbytes : peer.readbuf.content ++ chunks.flatten =
        ((messages calls).map lengthHeader.frame).flatten := by
      rw [hnothing, hchunks, hstream, hframes, List.nil_append]
    have hdrain := lengthHeader.drain_frames hlt
    have hbelow := lengthHeader.headersBelow_frames fun m hm =>
      ⟨hlt m hm, length_lt_of_framesFit hio hfits hm⟩
    rw [← hbytes] at hdrain hbelow
    have hheld : lengthHeader.takeFrame peer.readbuf.content = none := by rw [hnothing]; rfl
    obtain ⟨rbuf, -, hleft, hrec⟩ := TcpLengthCoder.receive_eq_drain hpeer hheld hfit hbelow
    rw [hdrain] at hleft hrec
    exact ⟨_, hrec, hleft⟩

/-- The response `ok = false` is serialized as the bytes 8, 0. Its header announces two bytes,
    and one byte follows. -/
theorem rpc_roundTrip_fails_on_nul :
    ¬ ∀ (p : Ptr) (io : ChannelCall) (calls : List Call) (peer : Channel),
      io.channel.writebuf.WF → io.channel.writebuf.content = [] → FramesFit io calls →
      peer.readbuf.WF → peer.readbuf.writer = 0 →
      ∀ chunks, chunks.flatten = (sendAll p io calls).channel.writebuf.content →
        TcpLengthCoder.NoOverflow peer chunks →
        DeliversExactly peer chunks (messages calls) := by
  intro h
  have hwf : (TcpEndpoint.newCall).channel.writebuf.WF :=
    FixedBuffer.wf_fresh Channel.kBufferSize_pos
  obtain ⟨peer', hrec, -⟩ := h 0 TcpEndpoint.newCall [.callback [8, 0]] (Channel.new 7) hwf
    (by decide) (by decide) (FixedBuffer.wf_fresh Channel.kBufferSize_pos) rfl
    [[0, 0, 0, 2, 8]] (by decide)
    ⟨by decide, fun _ _ _ => trivial⟩
  have hms : (TcpLengthCoder.receive (Channel.new 7) [[0, 0, 0, 2, 8]]).map Prod.fst =
      some [[8, 0]] := by rw [hrec]; rfl
  revert hms
  decide

theorem rpc_roundTrip_two_calls :
    (∀ chunks, chunks.flatten = (sendAll 0 TcpEndpoint.newCall
          [.callMethod [65], .callback []]).channel.writebuf.content →
        TcpLengthCoder.NoOverflow (Channel.new 7) chunks →
        DeliversExactly (Channel.new 7) chunks [[65], []]) ↔
      ∀ m ∈ [[65], []], (0 : UInt8) ∉ m :=
  rpc_roundTrip_iff 0 TcpEndpoint.newCall [.callMethod [65], .callback []] (Channel.new 7)
    (FixedBuffer.wf_fresh Channel.kBufferSize_pos) (by decide) (by decide)
    (FixedBuffer.wf_fresh Channel.kBufferSize_pos) rfl

/-! ## Whole frames or nothing -/

/-- The write buffer holds what it held before, or that and the whole frame. -/
def WholeOrNothing (p : Ptr) (io : ChannelCall) (m : List UInt8) : Prop :=
  (sendFrame p io m).channel.writebuf.content = io.channel.writebuf.content ∨
    (sendFrame p io m).channel.writebuf.content =
      io.channel.writebuf.content ++ lengthHeader.frame m

/-- A call queues as much of the header as fits, and then as much of the message as `append` is
    told and there is room for behind it. -/
theorem sendFrame_content {m : List UInt8} (hio : io.channel.writebuf.WF) :
    ∃ h b : ℕ, h = min 4 io.channel.writebuf.writable.toNat ∧
      b = min (castInt (strlen m)).toNat (io.channel.writebuf.writable.toNat - h) ∧
      b ≤ m.length ∧
      (sendFrame p io m).channel.writebuf.content =
        io.channel.writebuf.content ++ (lengthHeader.write m.length).take h ++ m.take b := by
  set c := TcpLengthCoder.AppendInt32 io.channel m.length with hc
  have hbuf : c.writebuf =
      (io.channel.writebuf.append (lengthHeader.write m.length) 4).1 := rfl
  have hwf : c.writebuf.WF := hbuf ▸ hio.append _ _
  have hstr : castInt (strlen m) ≤ m.length :=
    (castInt_le _).trans (by exact_mod_cast strlen_le m)
  have hroom : c.writebuf.writable = io.channel.writebuf.writable -
      io.channel.writebuf.taken 4 := by rw [hbuf, FixedBuffer.writable_append]
  refine ⟨io.channel.writebuf.taken 4, c.writebuf.taken (castInt (strlen m)), rfl, ?_, ?_, ?_⟩
  · simp only [FixedBuffer.taken] at hroom ⊢
    omega
  · simp only [FixedBuffer.taken]
    omega
  · have hsent : (sendFrame p io m).channel.writebuf =
        (c.writebuf.append m (castInt (strlen m))).1 := by
      rw [sendFrame, TcpEndpoint.send_writebuf]
      rfl
    have hlen : (4 : ℤ) ≤ (lengthHeader.write m.length).length := le_rfl
    rw [hsent, FixedBuffer.content_append hwf m hstr, hbuf, FixedBuffer.content_append hio _ hlen]

/-- Some room, and not enough: part of the frame is queued. -/
theorem not_wholeOrNothing {m : List UInt8} (hio : io.channel.writebuf.WF)
    (hroom : 0 < io.channel.writebuf.writable)
    (hshort : io.channel.writebuf.writable < 4 + m.length) : ¬ WholeOrNothing p io m := by
  obtain ⟨h, b, hh, hb, -, hcontent⟩ := sendFrame_content (p := p) (m := m) hio
  have hhead : (lengthHeader.write m.length).length = 4 := rfl
  have hsize : lengthHeader.size = 4 := rfl
  have hlen := congrArg List.length hcontent
  simp only [List.length_append, List.length_take, hhead] at hlen
  rintro (hsame | hwhole)
  · -- at least a byte of the header fitted
    rw [hsame] at hlen
    omega
  · rw [hwhole, List.length_append, HeaderCode.frame_length] at hlen
    omega

/-- For every state of the write buffer and every message without a zero byte, however long: a call
    queues its whole frame or nothing if and only if the frame fits into the room there is, or there
    is no room at all. -/
theorem sendFrame_whole_iff (p : Ptr) (io : ChannelCall) (m : List UInt8)
    (hio : io.channel.writebuf.WF) (hnul : 0 ∉ m) :
    WholeOrNothing p io m ↔
      (4 + m.length : ℤ) ≤ io.channel.writebuf.writable ∨ io.channel.writebuf.writable = 0 := by
  have hroom := hio.writable_nonneg
  constructor
  · intro hwhole
    by_contra hno
    exact not_wholeOrNothing hio (by omega) (by omega) hwhole
  · rintro (hfits | hfull)
    · right
      rw [(sendFrame_writebuf hio hfits).2.1, queued_of_no_nul hnul]
    · left
      obtain ⟨h, b, hh, hb, -, hcontent⟩ := sendFrame_content (p := p) (m := m) hio
      have hh0 : h = 0 := by omega
      have hb0 : b = 0 := by omega
      rw [hcontent, hh0, hb0, List.take_zero, List.take_zero, List.append_nil, List.append_nil]

/-- A channel whose write buffer has room for two bytes. -/
def nearlyFull : ChannelCall :=
  let c := Channel.new 5
  ⟨{ c with writebuf := (c.writebuf.append (List.replicate 8189 65) 8189).1 }, fun _ => none, 0,
    []⟩

theorem nearlyFull_wf : nearlyFull.channel.writebuf.WF :=
  (FixedBuffer.wf_fresh Channel.kBufferSize_pos).append _ _

theorem nearlyFull_writable : nearlyFull.channel.writebuf.writable = 2 := by
  show ((Channel.new 5).writebuf.append (List.replicate 8189 65) 8189).1.writable = 2
  rw [FixedBuffer.writable_append]
  rfl

/-- Half a header is queued, and nothing of the message. -/
theorem sendFrame_cuts_header :
    ¬ ∀ (p : Ptr) (io : ChannelCall) (m : List UInt8), io.channel.writebuf.WF → 0 ∉ m →
      WholeOrNothing p io m := by
  intro h
  have hroom := nearlyFull_writable
  refine not_wholeOrNothing nearlyFull_wf ?_ ?_ (h 0 nearlyFull [66] nearlyFull_wf (by decide))
  · rw [hroom]
    decide
  · rw [hroom]
    decide

theorem sendFrame_whole_nearlyFull :
    WholeOrNothing 0 nearlyFull [66] ↔
      (4 + ([66] : List UInt8).length : ℤ) ≤ nearlyFull.channel.writebuf.writable ∨
        nearlyFull.channel.writebuf.writable = 0 :=
  sendFrame_whole_iff 0 nearlyFull [66] nearlyFull_wf (by decide)

end PbRpcChannel

end Codechiev
