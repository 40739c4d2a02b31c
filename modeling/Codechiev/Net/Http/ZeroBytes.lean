import Codechiev.Net.Http.HttpServer

/-!
# Zero bytes in a request

A client may send any bytes. `strstr` goes as far as the first zero byte in the read buffer and no
further, so the blocks that `onMessage` cuts off are those that stand in front of the first zero
byte of the stream. From then on nothing is taken off the buffer any more: what arrives stays there
until it is full and the connection is shut (`receive_any_bytes`).
-/

namespace Codechiev

namespace HttpServer

/-- The blocks that `strstr` lets `onMessage` find. -/
def textDecoder : PrefixDecoder UInt8 (List UInt8) := headerEnd.decoderUpTo (· ≠ 0)

/-- What has arrived in front of the first zero byte. -/
def textOf (stream : List UInt8) : List UInt8 := stream.takeWhile (· ≠ 0)

/-- What has arrived from the first zero byte on. -/
def afterText (stream : List UInt8) : List UInt8 := stream.dropWhile (· ≠ 0)

theorem drain_textDecoder (stream : List UInt8) :
    textDecoder.drain stream = ((headerEnd.decoder.drain (textOf stream)).1,
      (headerEnd.decoder.drain (textOf stream)).2 ++ afterText stream) :=
  headerEnd.drain_decoderUpTo _ stream

/-- The buffer a call works on: within its bounds, and from the start of the array. -/
structure Aligned (b : ChannelBuffer) : Prop where
  wf : b.WF
  reader : b.reader = 0

variable {c : Channel}

/-! ## One call -/

/-- With enough fuel the loop is the drain of what `strstr` can find. -/
theorem messageLoop_eq_textDrain {fuel : ℕ} (hc : Aligned c.readbuf)
    (hfuel : c.readbuf.content.length < fuel) :
    ∃ rbuf : ChannelBuffer, Aligned rbuf ∧
      rbuf.content = (textDecoder.drain c.readbuf.content).2 ∧
      messageLoop fuel c =
        some ((textDecoder.drain c.readbuf.content).1, { c with readbuf := rbuf }) := by
  induction fuel generalizing c with
  | zero => omega
  | succ fuel ih =>
    have hstr := hc.wf.cString_eq
    cases hfound : strstr (c.readbuf.content.takeWhile (· ≠ 0)) with
    | none =>
      have hnone : textDecoder.step c.readbuf.content = none :=
        Separator.decoderUpTo_step_none.mpr hfound
      refine ⟨c.readbuf, hc, ?_, ?_⟩
      · rw [PrefixDecoder.drain_of_none _ hnone]
      · rw [PrefixDecoder.drain_of_none _ hnone, messageLoop]
        simp only [hstr, hfound]
    | some len =>
      have hsome : textDecoder.step c.readbuf.content =
          some (c.readbuf.content.take len, c.readbuf.content.drop (len + 4)) :=
        Separator.decoderUpTo_step_some hfound
      have hle := found_within hc.wf hstr hfound
      obtain ⟨hmsg, hcontent⟩ := takeMessage_eq hc.wf hle
      have hrest : Aligned (takeMessage c len).2.readbuf := ⟨wf_takeMessage hc.wf hle, rfl⟩
      have hshrink : (c.readbuf.content.drop (len + 4)).length < c.readbuf.content.length :=
        textDecoder.step_shrinks hsome
      obtain ⟨rbuf, halign, hleft, hloop⟩ := ih hrest (by rw [hcontent]; omega)
      rw [hcontent] at hleft hloop
      refine ⟨rbuf, halign, ?_, ?_⟩
      · rw [PrefixDecoder.drain_of_some _ hsome]
        exact hleft
      · rw [PrefixDecoder.drain_of_some _ hsome, messageLoop]
        simp only [hstr, hfound, hmsg]
        rw [hloop]
        rfl

/-- What a call makes of the bytes that the buffer holds. -/
structure Drains (held : List UInt8) (out : Outcome) : Prop where
  aligned : Aligned out.channel.readbuf
  messages : out.messages = (textDecoder.drain held).1
  left : out.channel.readbuf.content = (textDecoder.drain held).2
  shut_iff : out.shut = true ↔ (textDecoder.drain held).2.length = kBufferSize - 1

theorem onMessage_drains (hc : Aligned c.readbuf) :
    ∃ out, onMessage c = some out ∧ Drains c.readbuf.content out ∧
      out.channel = { c with readbuf := out.channel.readbuf } := by
  have hfuel : c.readbuf.content.length < c.readbuf.readable.toNat + 1 := by
    rw [FixedBuffer.content_length]
    omega
  obtain ⟨rbuf, halign, hleft, hloop⟩ := messageLoop_eq_textDrain hc hfuel
  have hwritable := halign.wf.writable_of_reader halign.reader
  rw [hleft] at hwritable
  refine ⟨⟨_, _, _⟩, by rw [onMessage, hloop]; rfl, ⟨halign, rfl, hleft, ?_⟩, rfl⟩
  show decide (rbuf.writable = 0) = true ↔ _
  rw [decide_eq_true_eq, hwritable]
  simp only [kBufferSize]
  omega

theorem aligned_arrive {chunk : List UInt8} (hc : Aligned c.readbuf)
    (hroom : (chunk.length : ℤ) ≤ c.readbuf.writable) :
    Aligned (arrive c chunk).readbuf ∧
      (arrive c chunk).readbuf.content = c.readbuf.content ++ chunk := by
  refine ⟨⟨hc.wf.append _ _, FixedBuffer.append_reader.trans hc.reader⟩, ?_⟩
  show (c.readbuf.append chunk chunk.length).1.content = _
  rw [FixedBuffer.content_append_of_fits hc.wf chunk le_rfl hroom, List.take_length]

/-! ## A stream in chunks -/

/-- A call takes nothing if a zero byte is there already. -/
theorem messages_of_zero {held chunk : List UInt8} (hheld : textDecoder.step held = none)
    (hzero : 0 ∈ held) : (textDecoder.drain (held ++ chunk)).1 = [] := by
  have hnone : textDecoder.step (held ++ chunk) = none :=
    Separator.decoderUpTo_step_append hheld hzero (by decide) chunk
  rw [PrefixDecoder.drain_of_none _ hnone]

/-- What a run over `chunks` does, from the bytes `held` at its start. -/
structure CutsText (held : List UInt8) (chunks : List (List UInt8)) (outs : List Outcome) :
    Prop where
  length : outs.length = chunks.length
  messages : (outs.map Outcome.messages).flatten = (textDecoder.drain (held ++ chunks.flatten)).1
  each : ∀ k out, outs[k]? = some out →
    out.channel.readbuf.content = (textDecoder.drain (held ++ (chunks.take (k + 1)).flatten)).2 ∧
      (out.shut = true ↔ out.channel.readbuf.content.length = kBufferSize - 1) ∧
      (0 ∈ held ++ (chunks.take k).flatten → out.messages = [])

theorem CutsText.cons {held chunk : List UInt8} {rest : List (List UInt8)} {out : Outcome}
    {outs : List Outcome} (hheld : textDecoder.step held = none) (hout : Drains (held ++ chunk) out)
    (h : CutsText out.channel.readbuf.content rest outs) :
    CutsText held (chunk :: rest) (out :: outs) := by
  have happend : ∀ zs, textDecoder.drain (held ++ (chunk ++ zs)) =
      (out.messages ++ (textDecoder.drain (out.channel.readbuf.content ++ zs)).1,
        (textDecoder.drain (out.channel.readbuf.content ++ zs)).2) := by
    intro zs
    rw [← List.append_assoc, PrefixDecoder.drain_append, hout.messages, hout.left]
  refine ⟨by rw [List.length_cons, List.length_cons, h.length], ?_, fun k out' hk => ?_⟩
  · rw [List.map_cons, List.flatten_cons, List.flatten_cons, happend, h.messages]
  · cases k with
    | zero =>
      rw [List.getElem?_cons_zero, Option.some.injEq] at hk
      subst hk
      rw [List.take_succ_cons, List.take_zero, List.flatten_singleton, hout.left]
      refine ⟨rfl, hout.shut_iff, fun hzero => ?_⟩
      rw [List.take_zero, List.flatten_nil, List.append_nil] at hzero
      rw [hout.messages]
      exact messages_of_zero hheld hzero
    | succ k =>
      rw [List.getElem?_cons_succ] at hk
      obtain ⟨hleft, hshut, hnone⟩ := h.each k out' hk
      rw [List.take_succ_cons, List.flatten_cons, happend]
      refine ⟨hleft, hshut, fun hzero => hnone ?_⟩
      -- a zero byte that arrived is still there
      rw [List.take_succ_cons, List.flatten_cons, ← List.append_assoc, List.mem_append] at hzero
      rw [List.mem_append]
      refine hzero.imp_left fun hzero => ?_
      rw [hout.left]
      exact Separator.mem_drain_decoderUpTo hzero (by decide)

theorem receive_cutsText {chunks : List (List UInt8)} (hc : Aligned c.readbuf)
    (hheld : textDecoder.step c.readbuf.content = none) (hfit : NoOverflow c chunks) :
    ∃ outs c', receive c chunks = some (outs, c') ∧ CutsText c.readbuf.content chunks outs := by
  induction chunks generalizing c with
  | nil =>
    refine ⟨[], c, rfl, rfl, ?_, fun k out hk => by simp at hk⟩
    simp [PrefixDecoder.drain_of_none _ hheld]
  | cons chunk rest ih =>
    obtain ⟨hroom, hrest⟩ := hfit
    obtain ⟨halign, hcontent⟩ := aligned_arrive hc hroom
    obtain ⟨out, hcall, hout, -⟩ := onMessage_drains halign
    rw [hcontent] at hout
    obtain ⟨outs, c', hrec, hcuts⟩ := ih hout.aligned
      (by rw [hout.left]; exact textDecoder.step_drain _) (hrest out hcall)
    refine ⟨out :: outs, c', ?_, hcuts.cons hheld hout⟩
    simp only [receive, hcall, hrec, Option.map_some]

/-- For every stream, zero bytes or not, and every way of cutting it into chunks that the read
    buffer takes whole: every call of `onMessage` returns; the blocks are those that the terminators
    cut off what stands in front of the first zero byte; each call leaves the rest of that and all
    that follows it, and shuts the connection exactly if this fills the buffer; and once a zero byte
    has arrived no later call takes a block. -/
theorem receive_any_bytes (fd : Fd) (chunks : List (List UInt8))
    (hfit : NoOverflow (.new fd) chunks) :
    ∃ outs c', receive (.new fd) chunks = some (outs, c') ∧ outs.length = chunks.length ∧
      (outs.map Outcome.messages).flatten =
        (headerEnd.decoder.drain (textOf chunks.flatten)).1 ∧
      ∀ k out, outs[k]? = some out →
        out.channel.readbuf.content =
            (headerEnd.decoder.drain (textOf (chunks.take (k + 1)).flatten)).2 ++
              afterText (chunks.take (k + 1)).flatten ∧
          (out.shut = true ↔ out.channel.readbuf.content.length = kBufferSize - 1) ∧
          (0 ∈ (chunks.take k).flatten → out.messages = []) := by
  have hempty : (Channel.new fd).readbuf.content = [] := FixedBuffer.content_fresh
  have hheld : textDecoder.step (Channel.new fd).readbuf.content = none := by
    rw [hempty]
    rfl
  have hnew : Aligned (Channel.new fd).readbuf := ⟨(clean_new fd).wf, rfl⟩
  obtain ⟨outs, c', hrec, hcuts⟩ := receive_cutsText hnew hheld hfit
  rw [hempty] at hcuts
  refine ⟨outs, c', hrec, hcuts.length, ?_, fun k out hk => ?_⟩
  · rw [hcuts.messages, List.nil_append, drain_textDecoder]
  · have heach := hcuts.each k out hk
    rwa [List.nil_append, List.nil_append, drain_textDecoder] at heach

/-- A stream that fits as a whole fits in chunks. -/
theorem noOverflow_of_total {chunks : List (List UInt8)} (hc : Aligned c.readbuf)
    (hfits : c.readbuf.content.length + chunks.flatten.length ≤ kBufferSize - 1) :
    NoOverflow c chunks := by
  induction chunks generalizing c with
  | nil => trivial
  | cons chunk rest ih =>
    rw [List.flatten_cons, List.length_append] at hfits
    have hroom : (chunk.length : ℤ) ≤ c.readbuf.writable := by
      rw [hc.wf.writable_of_reader hc.reader]
      simp only [kBufferSize] at hfits ⊢
      omega
    obtain ⟨halign, hcontent⟩ := aligned_arrive hc hroom
    refine ⟨hroom, fun out hcall => ?_⟩
    obtain ⟨out', hcall', hout, -⟩ := onMessage_drains halign
    rw [hcall, Option.some.injEq] at hcall'
    subst hcall'
    apply ih hout.aligned
    have hle := textDecoder.drain_length_le (arrive c chunk).readbuf.content
    rw [hcontent, List.length_append] at hle
    rw [hout.left, hcontent]
    omega

/-- A zero byte between two requests. -/
theorem receive_any_bytes_split :
    ∃ outs c', receive (.new 5) [[71, 13, 10, 13, 10], [0], [13, 10, 13, 10]] =
        some (outs, c') ∧ outs.length = 3 ∧ (outs.map Outcome.messages).flatten =
        (headerEnd.decoder.drain (textOf [71, 13, 10, 13, 10, 0, 13, 10, 13, 10])).1 := by
  have hfit : NoOverflow (.new 5) [[71, 13, 10, 13, 10], [0], [13, 10, 13, 10]] :=
    noOverflow_of_total ⟨(clean_new 5).wf, rfl⟩ (by decide)
  obtain ⟨outs, c', hrec, hlen, hmsgs, -⟩ := receive_any_bytes 5 _ hfit
  exact ⟨outs, c', hrec, hlen, hmsgs⟩

end HttpServer

end Codechiev
