import Codechiev.Net.Http.HttpServer
import Codechiev.Net.InputStream
import Codechiev.Net.TcpLengthCoder

/-!
# Full read buffers

A read buffer without room drops whatever arrives. `HttpServer::onMessage` shuts the connection
then. The `onData` of the protobuf endpoints does not: a full buffer whose header announces more
than it holds stays full, and the channel open (`room_left_iff`), and no later chunk changes that
(`receive_wedged`).
-/

namespace Codechiev

open TcpLengthCoder

/-- `ProtoServer::onData(Channel*)`, which queues each message as a job and never calls `shut`. -/
def ProtoServer.onData (c : Channel) : Option HttpServer.Outcome :=
  (TcpLengthCoder.onData c).map fun out => ⟨out.1, out.2, false⟩

/-- `ProtoClient::onData(Channel*)`, which passes each message to `onMessage` and never calls
    `shut`. -/
def ProtoClient.onData (c : Channel) : Option HttpServer.Outcome :=
  (TcpLengthCoder.onData c).map fun out => ⟨out.1, out.2, false⟩

/-- The connection can go on: there is room for more bytes, or it is being shut. -/
def HttpServer.Outcome.Unwedged (out : HttpServer.Outcome) : Prop :=
  0 < out.channel.readbuf.writable ∨ out.shut = true

/-! ## HTTP -/

theorem HttpServer.wf_messageLoop {fuel : ℕ} {c c' : Channel} {ms : List (List UInt8)}
    (hc : c.readbuf.WF) (h : HttpServer.messageLoop fuel c = some (ms, c')) : c'.readbuf.WF := by
  induction fuel generalizing c ms with
  | zero => cases h
  | succ fuel ih =>
    rw [HttpServer.messageLoop] at h
    split at h
    · cases h
    · rename_i str hstr
      split at h
      · obtain ⟨-, rfl⟩ := Prod.mk.inj (Option.some.inj h)
        exact hc
      · rename_i len hlen
        obtain ⟨⟨rest, c₁⟩, hloop, hout⟩ := Option.map_eq_some_iff.mp h
        obtain ⟨-, rfl⟩ := Prod.mk.inj hout
        have hle := HttpServer.found_within hc hstr hlen
        exact ih (HttpServer.wf_takeMessage hc hle) hloop

/-- `HttpServer::onMessage` leaves room or shuts, on every content. -/
theorem HttpServer.onMessage_unwedged {c : Channel} {out : HttpServer.Outcome}
    (hc : c.readbuf.WF) (h : HttpServer.onMessage c = some out) : out.Unwedged := by
  obtain ⟨⟨ms, c'⟩, hloop, rfl⟩ := Option.map_eq_some_iff.mp h
  have hroom := (HttpServer.wf_messageLoop hc hloop).writable_nonneg
  by_cases hfull : c'.readbuf.writable = 0
  · exact .inr (decide_eq_true hfull)
  · exact .inl (lt_of_le_of_ne hroom (Ne.symm hfull))

namespace TcpLengthCoder

variable {c c' : Channel} {ms : List (List UInt8)}

/-! ## Protobuf -/

/-- A call of `decode` that stays within the buffer takes one frame or nothing. -/
theorem takesOneFrame_of_some {out : Bool × Channel × List UInt8} (hc : c.readbuf.WF)
    (h : decode c [] = some out) : TakesOneFrame c [] := by
  by_cases hlen : 4 ≤ c.readbuf.content.length
  · by_cases hwrap : lengthHeader.read c.readbuf.content < wrapBound
    · exact takesOneFrame_of_below hc [] hlen hwrap
    · rw [decode_overrun hc [] hlen (by omega)] at h
      cases h
  · exact takesOneFrame_of_short [] (by omega)

theorem decode_true_reader {msg : List UInt8} (h : decode c [] = some (true, c', msg)) :
    c'.readbuf.reader = 0 := by
  simp only [decode] at h
  split at h
  · split at h
    · split at h
      · simp only [Option.some.injEq, Prod.mk.injEq] at h
        rw [← h.2.1]
        rfl
      · cases h
    · simp at h
  · simp at h

/-- Taking a frame makes room. -/
theorem decode_true_writable {msg : List UInt8} (hc : c.readbuf.WF)
    (h : decode c [] = some (true, c', msg)) :
    c'.readbuf.WF ∧ c.readbuf.writable ≤ c'.readbuf.writable ∧ 0 < c'.readbuf.writable := by
  obtain ⟨hwf, hlen⟩ := decode_true_length hc h
  have hroom := hwf.writable_of_reader (decode_true_reader h)
  have hcontent := hc.content_length
  have hr := hc.reader_nonneg
  have hw := hc.writer_lt
  have hframe : (lengthHeader.frame msg).length = 4 + msg.length := lengthHeader.frame_length msg
  simp only [FixedBuffer.readable] at hcontent
  refine ⟨hwf, ?_, ?_⟩
  · rw [hroom]
    simp only [FixedBuffer.writable]
    omega
  · rw [hroom]
    omega

/-- The loop makes room if it takes a frame, and otherwise changes nothing. -/
theorem decodeLoop_writable {fuel : ℕ} (hc : c.readbuf.WF)
    (h : decodeLoop fuel c = some (ms, c')) :
    c.readbuf.writable ≤ c'.readbuf.writable ∧
      (HoldsFrame c → 0 < c'.readbuf.writable) ∧ (¬ HoldsFrame c → c' = c) := by
  induction fuel generalizing c ms with
  | zero => cases h
  | succ fuel ih =>
    rw [decodeLoop] at h
    split at h
    · cases h
    · rename_i c₁ _ hdec
      obtain ⟨-, rfl⟩ := Prod.mk.inj (Option.some.inj h)
      obtain ⟨rfl, -⟩ := decode_false hdec
      refine ⟨le_rfl, fun hframe => ?_, fun _ => rfl⟩
      obtain ⟨rbuf, htrue, -⟩ := (takesOneFrame_of_some hc hdec).frame hframe
      rw [hdec] at htrue
      cases htrue
    · rename_i c₁ msg hdec
      obtain ⟨⟨rest, c₂⟩, hloop, hout⟩ := Option.map_eq_some_iff.mp h
      obtain ⟨-, rfl⟩ := Prod.mk.inj hout
      obtain ⟨hwf, hmore, hroom⟩ := decode_true_writable hc hdec
      obtain ⟨hrest, -, -⟩ := ih hwf hloop
      refine ⟨hmore.trans hrest, fun _ => hroom.trans_le hrest, fun hno => ?_⟩
      have hfalse := (takesOneFrame_of_some hc hdec).nothing hno
      rw [hdec] at hfalse
      cases hfalse

theorem onData_writable_iff (hc : c.readbuf.WF) (h : onData c = some (ms, c')) :
    0 < c'.readbuf.writable ↔ 0 < c.readbuf.writable ∨ HoldsFrame c := by
  obtain ⟨hmore, hframe, hnone⟩ := decodeLoop_writable hc h
  constructor
  · intro hroom
    by_cases hholds : HoldsFrame c
    · exact .inr hholds
    · rw [hnone hholds] at hroom
      exact .inl hroom
  · rintro (hroom | hholds)
    · exact hroom.trans_le hmore
    · exact hframe hholds

theorem unwedged_iff {out : HttpServer.Outcome} (hc : c.readbuf.WF)
    (h : (onData c).map (fun out => (⟨out.1, out.2, false⟩ : HttpServer.Outcome)) = some out) :
    out.Unwedged ↔ 0 < c.readbuf.writable ∨ HoldsFrame c := by
  obtain ⟨⟨ms, c'⟩, hdata, rfl⟩ := Option.map_eq_some_iff.mp h
  rw [← onData_writable_iff hc hdata]
  simp [HttpServer.Outcome.Unwedged]

/-- On every content of the read buffer: when `ProtoServer::onData` or `ProtoClient::onData`
    returns, there is room or the channel has been shut if and only if there was room before, or a
    whole frame in front. -/
theorem room_left_iff (c : Channel) (out : HttpServer.Outcome) (hc : c.readbuf.WF) :
    (ProtoServer.onData c = some out →
      (out.Unwedged ↔ 0 < c.readbuf.writable ∨ HoldsFrame c)) ∧
    (ProtoClient.onData c = some out →
      (out.Unwedged ↔ 0 < c.readbuf.writable ∨ HoldsFrame c)) :=
  ⟨fun h => unwedged_iff hc h, fun h => unwedged_iff hc h⟩

/-! ## A wedged connection -/

/-- A full buffer whose header announces more than it holds. -/
structure Wedged (c : Channel) : Prop where
  wf : c.readbuf.WF
  full : c.readbuf.writable = 0
  header : 4 ≤ c.readbuf.content.length
  below : lengthHeader.read c.readbuf.content < wrapBound
  incomplete : c.readbuf.content.length < 4 + lengthHeader.read c.readbuf.content

theorem Wedged.onData (h : Wedged c) : onData c = some ([], c) := by
  have hno : ¬ HoldsFrame c := fun hframe => absurd hframe.2 (Nat.not_le.mpr h.incomplete)
  have hdec := (takesOneFrame_of_below h.wf [] h.header h.below).nothing hno
  rw [TcpLengthCoder.onData, decodeLoop, hdec]

/-- Nothing that arrives later is kept, and nothing is decoded. -/
theorem receive_wedged (h : Wedged c) (chunks : List (List UInt8)) :
    receive c chunks = some ([], c) := by
  induction chunks with
  | nil => rfl
  | cons chunk rest ih =>
    have hnone : (c.readbuf.append chunk chunk.length).1 = c.readbuf := by
      rw [FixedBuffer.append_fst, if_pos]
      simp only [FixedBuffer.taken, h.full]
      omega
    have hchunk : receiveChunk c chunk = some ([], c) := by
      rw [receiveChunk, hnone]
      exact h.onData
    rw [receive, hchunk]
    simp only [ih, Option.map_some, List.nil_append]

open TcpEndpoint (fullChannel fullChannel_wf fullChannel_writable)

/-- `fullChannel` holds 8191 times the byte 65, so its header announces 1094795585 bytes. -/
theorem fullChannel_wedged : Wedged fullChannel := by
  have hcontent : fullChannel.readbuf.content = List.replicate 8191 65 := by
    show ((Channel.new 5).readbuf.append (List.replicate 8191 65) 8191).1.content = _
    have hlen : 8191 ≤ (List.replicate 8191 (65 : UInt8)).length := by rw [List.length_replicate]
    have hfits := FixedBuffer.content_append_of_fits (b := (Channel.new 5).readbuf)
      (FixedBuffer.wf_fresh Channel.kBufferSize_pos) _ hlen (by decide)
    refine hfits.trans ?_
    rw [List.take_of_length_le (by rw [List.length_replicate])]
    exact congrArg (· ++ List.replicate 8191 65) FixedBuffer.content_fresh
  have hread : lengthHeader.read fullChannel.readbuf.content = 1094795585 := by
    rw [hcontent, show 8191 = 4 + 8187 from rfl, List.replicate_add,
      lengthHeader.read_append _ (by decide)]
    rfl
  refine ⟨fullChannel_wf, fullChannel_writable, ?_, ?_, ?_⟩
  · rw [hcontent, List.length_replicate]
    decide
  · rw [hread]
    decide
  · rw [hread, hcontent, List.length_replicate]
    decide

theorem onData_fullChannel : TcpLengthCoder.onData fullChannel = some ([], fullChannel) :=
  fullChannel_wedged.onData

/-- The buffer stays full, and nothing is shut. -/
theorem onData_leaves_full :
    ¬ ∀ (c : Channel) (out : HttpServer.Outcome), c.readbuf.WF →
      (ProtoServer.onData c = some out → out.Unwedged) ∧
      (ProtoClient.onData c = some out → out.Unwedged) := by
  intro h
  have hdata : ProtoServer.onData fullChannel = some ⟨[], fullChannel, false⟩ := by
    rw [ProtoServer.onData, onData_fullChannel]
    rfl
  rcases (h fullChannel _ fullChannel_wf).1 hdata with hroom | hshut
  · exact absurd fullChannel_writable hroom.ne'
  · cases hshut

theorem room_left_full :
    (ProtoServer.onData fullChannel = some ⟨[], fullChannel, false⟩ ∧
      ((⟨[], fullChannel, false⟩ : HttpServer.Outcome).Unwedged ↔
        0 < fullChannel.readbuf.writable ∨ HoldsFrame fullChannel)) ∧
    ProtoClient.onData fullChannel = some ⟨[], fullChannel, false⟩ ∧
      ((⟨[], fullChannel, false⟩ : HttpServer.Outcome).Unwedged ↔
        0 < fullChannel.readbuf.writable ∨ HoldsFrame fullChannel) := by
  have hserver : ProtoServer.onData fullChannel = some ⟨[], fullChannel, false⟩ := by
    rw [ProtoServer.onData, onData_fullChannel]
    rfl
  have hclient : ProtoClient.onData fullChannel = some ⟨[], fullChannel, false⟩ := by
    rw [ProtoClient.onData, onData_fullChannel]
    rfl
  have h := room_left_iff fullChannel ⟨[], fullChannel, false⟩ fullChannel_wf
  exact ⟨⟨hserver, h.1 hserver⟩, hclient, h.2 hclient⟩

end TcpLengthCoder

end Codechiev
