import Codechiev.Library.DelimitedDecoder
import Codechiev.Net.Channel

/-!
# `net::HttpServer`

`onMessage` cuts header blocks off the read buffer, each at the first `"\r\n\r\n"`, and shuts the
connection when the buffer has no room left. The search is `strstr`, which knows nothing of the
indices: it stops at the first zero byte, at the latest the one that `append` and `move` keep at
the writer. So it finds what stands in the readable bytes and nothing else, and on a stream
without zero bytes the blocks are those of the whole stream, however it arrives in chunks
(`receive_chunks`).
-/

namespace Codechiev

/-- The C string that `str()` points to. Without a zero byte in the rest of the array it would run
    past it, and there is none. -/
def FixedBuffer.cString {N : ℕ} (b : FixedBuffer N) : Option (List UInt8) :=
  let rest := b.region b.reader (N - b.reader).toNat
  if 0 ∈ rest then some (rest.takeWhile (· ≠ 0)) else none

/-- In a buffer that keeps its bounds the string ends within the readable bytes. -/
theorem FixedBuffer.WF.cString_eq {N : ℕ} {b : FixedBuffer N} (hb : b.WF) :
    b.cString = some (b.content.takeWhile (· ≠ 0)) := by
  have hle := hb.reader_le
  have hlt := hb.writer_lt
  have hsize : (N - b.reader).toNat = b.readable.toNat + (N - b.writer).toNat := by
    simp only [readable]
    omega
  have hwriter : b.reader + (b.readable.toNat : ℤ) = b.writer := by
    simp only [readable]
    omega
  -- the zero byte at the writer stands behind the readable bytes
  obtain ⟨n, hn⟩ := Nat.exists_eq_add_of_le' (show 1 ≤ (N - b.writer).toNat by omega)
  have hrest : b.region b.reader (N - b.reader).toNat =
      b.content ++ 0 :: b.region (b.writer + 1) n := by
    rw [hsize, region_add, hwriter, hn, Nat.add_comm n 1, region_add]
    show _ ++ ([b.cell (b.writer + 0)] ++ _) = _
    rw [add_zero, hb.terminated]
    rfl
  simp only [cString, hrest]
  rw [if_pos (by simp), List.takeWhile_append]
  split
  · rename_i hall
    have hself : b.content.takeWhile (· ≠ 0) = b.content :=
      (List.takeWhile_prefix _).eq_of_length hall
    rw [hself]
    simp
  · rfl

namespace HttpServer

/-- `"\r\n\r\n"`. -/
def headerEnd : Separator UInt8 := ⟨[13, 10, 13, 10], by simp⟩

/-- `::strstr(hay, "\r\n\r\n")`, as the distance of what it points to from `hay`. -/
def strstr (hay : List UInt8) : Option ℕ := headerEnd.firstIndex hay

/-- What `onMessage` did: the blocks it cut off, the channel, and whether it called `shut`. -/
structure Outcome where
  messages : List (List UInt8)
  channel : Channel
  shut : Bool

/-- One iteration that found a terminator at distance `len`: the block and the channel. -/
def takeMessage (c : Channel) (len : ℕ) : List UInt8 × Channel :=
  (c.readbuf.region c.readbuf.reader len,
    { c with readbuf := (c.readbuf.read (len + 4)).move })

/-- The loop of `onMessage`, with a bound on its iterations. -/
def messageLoop : ℕ → Channel → Option (List (List UInt8) × Channel)
  | 0, _ => none
  | fuel + 1, c =>
    match c.readbuf.cString with
    | none => none
    | some str =>
      match strstr str with
      | none => some ([], c)
      | some len =>
        let (httpMsg, c') := takeMessage c len
        (messageLoop fuel c').map fun out => (httpMsg :: out.1, out.2)

/-- `onMessage(Channel*)`. Each block uses up its terminator, so there are fewer iterations than
    readable bytes, and the bound is never met (`onMessage_eq_drain`). -/
def onMessage (c : Channel) : Option Outcome :=
  (messageLoop (c.readbuf.readable.toNat + 1) c).map fun out =>
    ⟨out.1, out.2, out.2.readbuf.writable = 0⟩

/-- The channels in which an iteration of the loop starts. -/
inductive LoopHead (c : Channel) : Channel → Prop where
  | enter : LoopHead c c
  | next {c' : Channel} {str : List UInt8} {len : ℕ} : LoopHead c c' →
      c'.readbuf.cString = some str → strstr str = some len →
      LoopHead c (takeMessage c' len).2

/-- Whatever an iteration of the loop finds ends at the writer or before it. -/
def MatchesWithin (c : Channel) : Prop :=
  ∀ c', LoopHead c c' → ∀ str len, c'.readbuf.cString = some str → strstr str = some len →
    c'.readbuf.reader + len + 4 ≤ c'.readbuf.writer

/-- A chunk arrives in the read buffer. -/
def arrive (c : Channel) (chunk : List UInt8) : Channel :=
  { c with readbuf := (c.readbuf.append chunk chunk.length).1 }

/-- Chunks arrive one after the other, with `onMessage` called after each. -/
def receive (c : Channel) : List (List UInt8) → Option (List Outcome × Channel)
  | [] => some ([], c)
  | chunk :: rest =>
    match onMessage (arrive c chunk) with
    | none => none
    | some out => (receive out.channel rest).map fun r => (out :: r.1, r.2)

/-- No chunk is cut off by a full read buffer. -/
def NoOverflow (c : Channel) : List (List UInt8) → Prop
  | [] => True
  | chunk :: rest =>
    (chunk.length : ℤ) ≤ c.readbuf.writable ∧
      ∀ out, onMessage (arrive c chunk) = some out → NoOverflow out.channel rest

/-- In no call is anything found beyond the writer. -/
def AllMatchesWithin (c : Channel) : List (List UInt8) → Prop
  | [] => True
  | chunk :: rest =>
    MatchesWithin (arrive c chunk) ∧
      ∀ out, onMessage (arrive c chunk) = some out → AllMatchesWithin out.channel rest

/-! ## One iteration -/

variable {c : Channel} {str : List UInt8} {len : ℕ}

/-- What `strstr` finds lies within the readable bytes. -/
theorem found_within (hc : c.readbuf.WF) (hstr : c.readbuf.cString = some str)
    (hlen : strstr str = some len) : ((len + 4 : ℕ) : ℤ) ≤ c.readbuf.readable := by
  have hle : len + 4 ≤ str.length := Separator.firstIndex_add_le hlen
  rw [hc.cString_eq, Option.some.injEq] at hstr
  have hshort : str.length ≤ c.readbuf.content.length := by
    rw [← hstr]
    exact (List.takeWhile_prefix _).length_le
  have hcontent := hc.content_length
  omega

theorem wf_takeMessage (hc : c.readbuf.WF) (hle : ((len + 4 : ℕ) : ℤ) ≤ c.readbuf.readable) :
    (takeMessage c len).2.readbuf.WF := by
  exact (hc.read (n := ((len + 4 : ℕ) : ℤ)) (by omega) hle).move

theorem loopHead_wf (hc : c.readbuf.WF) {c' : Channel} (h : LoopHead c c') : c'.readbuf.WF := by
  induction h with
  | enter => exact hc
  | next _ hstr hlen ih => exact wf_takeMessage ih (found_within ih hstr hlen)

theorem matchesWithin_of_wf (hc : c.readbuf.WF) : MatchesWithin c := by
  intro c' hhead str len hstr hlen
  have hle := found_within (loopHead_wf hc hhead) hstr hlen
  simp only [FixedBuffer.readable] at hle
  omega

/-- Without zero bytes among them, the readable bytes are what `strstr` searches. -/
theorem cString_of_no_nul (hc : c.readbuf.WF) (hnul : 0 ∉ c.readbuf.content) :
    c.readbuf.cString = some c.readbuf.content := by
  rw [hc.cString_eq, List.takeWhile_eq_self_iff.mpr (ne_zero_of_no_nul hnul)]

/-- The iteration takes the block off the readable bytes, and its terminator with it. -/
theorem takeMessage_eq (hc : c.readbuf.WF) (hle : ((len + 4 : ℕ) : ℤ) ≤ c.readbuf.readable) :
    (takeMessage c len).1 = c.readbuf.content.take len ∧
      (takeMessage c len).2.readbuf.content = c.readbuf.content.drop (len + 4) := by
  constructor
  · show c.readbuf.region c.readbuf.reader len = _
    rw [FixedBuffer.content, FixedBuffer.region_take _ _ (by omega)]
  · have hwf := hc.read (n := ((len + 4 : ℕ) : ℤ)) (by omega) hle
    show (c.readbuf.read ((len + 4 : ℕ) : ℤ)).move.content = _
    rw [FixedBuffer.content_move hwf, FixedBuffer.content_read _ hle]

/-! ## One call -/

/-- The buffer a call works on: within its bounds, from the start of the array, without zero
    bytes. -/
structure Clean (b : ChannelBuffer) : Prop where
  wf : b.WF
  reader : b.reader = 0
  no_nul : 0 ∉ b.content

/-- With enough fuel the loop is the drain of the decoder that cuts at the terminator. -/
theorem messageLoop_eq_drain {fuel : ℕ} (hc : Clean c.readbuf)
    (hfuel : c.readbuf.content.length < fuel) :
    ∃ rbuf : ChannelBuffer, Clean rbuf ∧
      rbuf.content = (headerEnd.decoder.drain c.readbuf.content).2 ∧
      messageLoop fuel c =
        some ((headerEnd.decoder.drain c.readbuf.content).1, { c with readbuf := rbuf }) := by
  induction fuel generalizing c with
  | zero => omega
  | succ fuel ih =>
    have hstr := cString_of_no_nul hc.wf hc.no_nul
    cases hfound : strstr c.readbuf.content with
    | none =>
      have hnone := Separator.decoder_step_none.mpr hfound
      refine ⟨c.readbuf, hc, ?_, ?_⟩
      · rw [PrefixDecoder.drain_of_none _ hnone]
      · rw [PrefixDecoder.drain_of_none _ hnone, messageLoop]
        simp only [hstr, hfound]
    | some len =>
      have hsome := Separator.decoder_step_some hfound
      have hle := found_within hc.wf hstr hfound
      obtain ⟨hmsg, hcontent⟩ := takeMessage_eq hc.wf hle
      have hrest : Clean (takeMessage c len).2.readbuf := by
        refine ⟨wf_takeMessage hc.wf hle, rfl, ?_⟩
        rw [hcontent]
        exact fun hmem => hc.no_nul (List.mem_of_mem_drop hmem)
      -- a block uses up its terminator at least, so the fuel left is enough for the rest
      have hshrink : (c.readbuf.content.drop (len + 4)).length < c.readbuf.content.length :=
        headerEnd.decoder.step_shrinks hsome
      obtain ⟨rbuf, hclean, hleft, hloop⟩ := ih hrest (by rw [hcontent]; omega)
      rw [hcontent] at hleft hloop
      refine ⟨rbuf, hclean, ?_, ?_⟩
      · rw [PrefixDecoder.drain_of_some _ hsome]
        exact hleft
      · rw [PrefixDecoder.drain_of_some _ hsome, messageLoop]
        simp only [hstr, hfound, hmsg]
        rw [hloop]
        rfl

/-- `onMessage` takes every complete block, leaves the rest, and shuts the connection if the rest
    fills the buffer. -/
theorem onMessage_eq_drain (hc : Clean c.readbuf) :
    ∃ out, onMessage c = some out ∧ Clean out.channel.readbuf ∧
      out.messages = (headerEnd.decoder.drain c.readbuf.content).1 ∧
      out.channel.readbuf.content = (headerEnd.decoder.drain c.readbuf.content).2 ∧
      out.channel = { c with readbuf := out.channel.readbuf } ∧
      (out.shut = true ↔
        (headerEnd.decoder.drain c.readbuf.content).2.length = kBufferSize - 1) := by
  have hfuel : c.readbuf.content.length < c.readbuf.readable.toNat + 1 := by
    rw [FixedBuffer.content_length]
    omega
  obtain ⟨rbuf, hclean, hleft, hloop⟩ := messageLoop_eq_drain hc hfuel
  have hwritable := hclean.wf.writable_of_reader hclean.reader
  rw [hleft] at hwritable
  refine ⟨⟨_, _, _⟩, by rw [onMessage, hloop]; rfl, hclean, rfl, hleft, rfl, ?_⟩
  show decide (rbuf.writable = 0) = true ↔ _
  rw [decide_eq_true_eq, hwritable]
  simp only [kBufferSize]
  omega

theorem arrive_content {chunk : List UInt8} (hc : Clean c.readbuf)
    (hroom : (chunk.length : ℤ) ≤ c.readbuf.writable) :
    (arrive c chunk).readbuf.content = c.readbuf.content ++ chunk := by
  show (c.readbuf.append chunk chunk.length).1.content = _
  rw [FixedBuffer.content_append_of_fits hc.wf chunk le_rfl hroom, List.take_length]

theorem Clean.arrive {chunk : List UInt8} (hc : Clean c.readbuf) (hnul : 0 ∉ chunk)
    (hroom : (chunk.length : ℤ) ≤ c.readbuf.writable) : Clean (arrive c chunk).readbuf := by
  refine ⟨hc.wf.append _ _, FixedBuffer.append_reader.trans hc.reader, ?_⟩
  rw [arrive_content hc hroom, List.mem_append]
  exact not_or_intro hc.no_nul hnul

/-! ## A stream in chunks -/

/-- What a run over `chunks` does, from the bytes `held` at its start: the blocks are those of the
    whole stream, each call leaves what no terminator ends yet, and shuts the connection if that
    fills the buffer. -/
structure Splits (held : List UInt8) (chunks : List (List UInt8)) (outs : List Outcome)
    (rbuf : ChannelBuffer) : Prop where
  messages : (outs.map Outcome.messages).flatten =
    (headerEnd.decoder.drain (held ++ chunks.flatten)).1
  left : rbuf.content = (headerEnd.decoder.drain (held ++ chunks.flatten)).2
  length : outs.length = chunks.length
  each : ∀ k out, outs[k]? = some out →
    out.channel.readbuf.content =
        (headerEnd.decoder.drain (held ++ (chunks.take (k + 1)).flatten)).2 ∧
      (out.shut = true ↔
        (headerEnd.decoder.drain (held ++ (chunks.take (k + 1)).flatten)).2.length =
          kBufferSize - 1)

theorem splits_cons {held chunk : List UInt8} {rest : List (List UInt8)} {out : Outcome}
    {outs : List Outcome} {rbuf : ChannelBuffer}
    (hmsgs : out.messages = (headerEnd.decoder.drain (held ++ chunk)).1)
    (hleft : out.channel.readbuf.content = (headerEnd.decoder.drain (held ++ chunk)).2)
    (hshut : out.shut = true ↔
      (headerEnd.decoder.drain (held ++ chunk)).2.length = kBufferSize - 1)
    (h : Splits out.channel.readbuf.content rest outs rbuf) :
    Splits held (chunk :: rest) (out :: outs) rbuf := by
  have happend : ∀ zs, headerEnd.decoder.drain (held ++ (chunk ++ zs)) =
      (out.messages ++ (headerEnd.decoder.drain (out.channel.readbuf.content ++ zs)).1,
        (headerEnd.decoder.drain (out.channel.readbuf.content ++ zs)).2) := by
    intro zs
    rw [← List.append_assoc, PrefixDecoder.drain_append, hmsgs, hleft]
  constructor
  · rw [List.map_cons, List.flatten_cons, List.flatten_cons, happend, h.messages]
  · rw [List.flatten_cons, happend, h.left]
  · rw [List.length_cons, List.length_cons, h.length]
  · intro k out' hk
    cases k with
    | zero =>
      rw [List.getElem?_cons_zero, Option.some.injEq] at hk
      subst hk
      rw [List.take_succ_cons, List.take_zero, List.flatten_singleton]
      exact ⟨hleft, hshut⟩
    | succ k =>
      rw [List.getElem?_cons_succ] at hk
      rw [List.take_succ_cons, List.flatten_cons, happend]
      exact h.each k out' hk

theorem receive_splits {chunks : List (List UInt8)} (hc : Clean c.readbuf)
    (hheld : headerEnd.decoder.step c.readbuf.content = none) (hnul : 0 ∉ chunks.flatten)
    (hfit : NoOverflow c chunks) :
    ∃ outs rbuf, receive c chunks = some (outs, { c with readbuf := rbuf }) ∧
      Splits c.readbuf.content chunks outs rbuf ∧ AllMatchesWithin c chunks := by
  induction chunks generalizing c with
  | nil =>
    refine ⟨[], c.readbuf, rfl, ⟨?_, ?_, rfl, fun k out hk => by simp at hk⟩, trivial⟩
    · simp [PrefixDecoder.drain_of_none _ hheld]
    · simp [PrefixDecoder.drain_of_none _ hheld]
  | cons chunk rest ih =>
    obtain ⟨hroom, hrest⟩ := hfit
    rw [List.flatten_cons, List.mem_append, not_or] at hnul
    have hclean := hc.arrive hnul.1 hroom
    have hcontent := arrive_content hc hroom
    obtain ⟨out, hcall, hout, hmsgs, hleft, hchannel, hshut⟩ := onMessage_eq_drain hclean
    rw [hcontent] at hmsgs hleft hshut
    -- what `onMessage` leaves holds no terminator, as the rest of the chunks needs it
    obtain ⟨outs, rbuf, hrec, hsplits, hmatches⟩ := ih hout
      (by rw [hleft]; exact headerEnd.decoder.step_drain _) hnul.2 (hrest out hcall)
    refine ⟨out :: outs, rbuf, ?_, splits_cons hmsgs hleft hshut hsplits, ?_, ?_⟩
    · simp only [receive, hcall, hrec, Option.map_some]
      rw [hchannel]
      rfl
    · exact matchesWithin_of_wf hclean.wf
    · intro out' hcall'
      rw [hcall, Option.some.injEq] at hcall'
      exact hcall' ▸ hmatches

theorem clean_new (fd : Fd) : Clean (Channel.new fd).readbuf :=
  ⟨FixedBuffer.wf_fresh Channel.kBufferSize_pos, rfl, by
    show 0 ∉ (FixedBuffer.fresh kBufferSize).content
    rw [FixedBuffer.content_fresh]
    exact List.not_mem_nil⟩

/-- For every stream without zero bytes and every way of cutting it into chunks that the read
    buffer takes whole: every call of `onMessage` returns; the blocks are those of the whole stream,
    cut at its terminators one after the other; each call leaves what no terminator ends, and shuts
    the connection exactly if that fills the buffer; and none finds anything beyond the writer. -/
theorem receive_chunks (fd : Fd) (chunks : List (List UInt8)) (hnul : 0 ∉ chunks.flatten)
    (hfit : NoOverflow (.new fd) chunks) :
    ∃ outs rbuf, receive (.new fd) chunks = some (outs, { Channel.new fd with readbuf := rbuf }) ∧
      Splits [] chunks outs rbuf ∧ AllMatchesWithin (.new fd) chunks := by
  have hempty : (Channel.new fd).readbuf.content = [] := FixedBuffer.content_fresh
  have hheld : headerEnd.decoder.step (Channel.new fd).readbuf.content = none := by
    rw [hempty]
    rfl
  obtain ⟨outs, rbuf, hrec, hsplits, hmatches⟩ := receive_splits (clean_new fd) hheld hnul hfit
  rw [hempty] at hsplits
  exact ⟨outs, rbuf, hrec, hsplits, hmatches⟩

/-- A stream that fits as a whole fits in chunks. -/
theorem noOverflow_of_length {chunks : List (List UInt8)} (hc : Clean c.readbuf)
    (hnul : 0 ∉ chunks.flatten)
    (hfits : c.readbuf.content.length + chunks.flatten.length ≤ kBufferSize - 1) :
    NoOverflow c chunks := by
  induction chunks generalizing c with
  | nil => trivial
  | cons chunk rest ih =>
    rw [List.flatten_cons, List.mem_append, not_or] at hnul
    rw [List.flatten_cons, List.length_append] at hfits
    have hroom : (chunk.length : ℤ) ≤ c.readbuf.writable := by
      rw [hc.wf.writable_of_reader hc.reader]
      simp only [kBufferSize] at hfits ⊢
      omega
    refine ⟨hroom, fun out hcall => ?_⟩
    obtain ⟨out', hcall', hout, -, hleft, -⟩ := onMessage_eq_drain (hc.arrive hnul.1 hroom)
    rw [hcall, Option.some.injEq] at hcall'
    subst hcall'
    apply ih hout hnul.2
    have hle := headerEnd.decoder.drain_length_le (arrive c chunk).readbuf.content
    rw [arrive_content hc hroom, List.length_append] at hle
    rw [hleft, arrive_content hc hroom]
    omega

/-- A request whose terminator is split, and the start of the next one. -/
theorem receive_chunks_split :
    ∃ outs rbuf, receive (.new 5) [[71, 13], [10, 13, 10, 71]] =
        some (outs, { Channel.new 5 with readbuf := rbuf }) ∧
      Splits [] [[71, 13], [10, 13, 10, 71]] outs rbuf ∧
      AllMatchesWithin (.new 5) [[71, 13], [10, 13, 10, 71]] := by
  have hnul : (0 : UInt8) ∉ [[71, 13], [10, 13, 10, 71]].flatten := by decide
  exact receive_chunks 5 [[71, 13], [10, 13, 10, 71]] hnul
    (noOverflow_of_length (clean_new 5) hnul (by decide))

end HttpServer

end Codechiev
