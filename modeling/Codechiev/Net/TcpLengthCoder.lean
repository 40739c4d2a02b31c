import Codechiev.Net.Channel
import Codechiev.Net.Internet

/-!
# `net::TcpLengthCoder`

The framing of the protobuf endpoints: a frame is a four-byte big-endian length and that many
bytes. `decode` takes one frame off the read buffer; `ProtoServer::onData` and
`ProtoClient::onData` call it until it answers `false`. The size of a whole frame is computed in
32 bits, so a length from 2³² - 4 on wraps, passes the size test, and `msg.append` then reads
past the buffer: that is `none` here. On streams without such a length, `onData` is the drain
of the length-prefix decoder (`onData_eq_drain`), and chunks do not matter (`receive_eq_drain`).
-/

namespace Codechiev

namespace TcpLengthCoder

/-- `sizeof` the header in `TcpLengthCoder<4>`. -/
def HEADER : ℕ := 4

/-- `decode(Channel*, std::string& msg)`: the value returned, the channel and `msg` afterwards.
    The comparison `readable>=whole` is between an `int` and a `uint32_t`, so unsigned. -/
def decode (c : Channel) (msg : List UInt8) : Option (Bool × Channel × List UInt8) :=
  let rbuf := c.readbuf
  let readable := rbuf.readable
  if readable ≥ HEADER then
    let length := NetworkToHost32 (wordAt (rbuf.region rbuf.reader 4))
    let whole := length + UInt32.ofNat HEADER
    if UInt32.ofInt readable ≥ whole then
      if rbuf.reader + HEADER + length.toNat ≤ kBufferSize then
        let msg := msg ++ rbuf.region (rbuf.reader + HEADER) length.toNat
        some (true, { c with readbuf := (rbuf.read whole.toNat).move }, msg)
      else none
    else some (false, c, msg)
  else some (false, c, msg)

/-- `AppendInt32(Channel*, size_t)`. -/
def AppendInt32 (c : Channel) (length : ℕ) : Channel :=
  let header := HostToNetwork32 (UInt32.ofNat length)
  { c with writebuf := (c.writebuf.append (memoryOf header) 4).1 }

/-- The loop of `onData`, with a bound on its iterations: the messages decoded, in order. -/
def decodeLoop : ℕ → Channel → Option (List (List UInt8) × Channel)
  | 0, _ => none
  | fuel + 1, c =>
    match decode c [] with
    | none => none
    | some (false, c', _) => some ([], c')
    | some (true, c', msg) => (decodeLoop fuel c').map fun out => (msg :: out.1, out.2)

/-- `onData(Channel*)`. Each message uses up at least its header, so there are fewer iterations
    than readable bytes, and the bound is never met (`onData_eq_drain`). -/
def onData (c : Channel) : Option (List (List UInt8) × Channel) :=
  decodeLoop (c.readbuf.readable.toNat + 1) c

/-- A chunk arrives in the read buffer, and `onData` runs. -/
def receiveChunk (c : Channel) (chunk : List UInt8) : Option (List (List UInt8) × Channel) :=
  onData { c with readbuf := (c.readbuf.append chunk chunk.length).1 }

/-- Chunks arrive one after the other, with `onData` run after each. -/
def receive (c : Channel) : List (List UInt8) → Option (List (List UInt8) × Channel)
  | [] => some ([], c)
  | chunk :: rest =>
    match receiveChunk c chunk with
    | none => none
    | some (ms, c') => (receive c' rest).map fun out => (ms ++ out.1, out.2)

/-- No chunk is cut off by a full read buffer. -/
def NoOverflow (c : Channel) : List (List UInt8) → Prop
  | [] => True
  | chunk :: rest =>
    (chunk.length : ℤ) ≤ c.readbuf.writable ∧
      ∀ ms c', receiveChunk c chunk = some (ms, c') → NoOverflow c' rest

/-- The lengths for which `length + HEADER` does not wrap. -/
def wrapBound : ℕ := 4294967292

/-! ## `AppendInt32` -/

variable {c c' : Channel}

/-- With room for it, the header is queued whole. -/
theorem AppendInt32_writebuf (n : ℕ) (hc : c.writebuf.WF) (hroom : 4 ≤ c.writebuf.writable) :
    (AppendInt32 c n).writebuf.WF ∧
      (AppendInt32 c n).writebuf.content = c.writebuf.content ++ lengthHeader.write n ∧
      (AppendInt32 c n).writebuf.writable = c.writebuf.writable - 4 := by
  have hlen : (memoryOf (HostToNetwork32 (UInt32.ofNat n))).length = 4 := rfl
  refine ⟨hc.append _ _, ?_, ?_⟩
  · exact FixedBuffer.content_append_of_fits hc _ hlen.ge (by omega)
  · rw [AppendInt32, FixedBuffer.writable_append]
    simp only [FixedBuffer.taken]
    omega

/-! ## `decode` on the readable bytes -/

theorem wordAt_content (h : 4 ≤ c.readbuf.content.length) :
    wordAt (c.readbuf.region c.readbuf.reader 4) = wordAt c.readbuf.content := by
  rw [FixedBuffer.content_length] at h
  have htake := FixedBuffer.region_take c.readbuf c.readbuf.reader h
  rw [← htake, ← wordAt_append (c.readbuf.content.drop 4) (by simp [htake])]
  rw [← FixedBuffer.content, List.take_append_drop]

theorem decode_fd {msg msg' : List UInt8} {found : Bool}
    (h : decode c msg = some (found, c', msg')) : c'.fd = c.fd := by
  simp only [decode] at h
  split at h
  · split at h
    · split at h
      · simp only [Option.some.injEq, Prod.mk.injEq] at h
        rw [← h.2.1]
      · cases h
    · simp only [Option.some.injEq, Prod.mk.injEq] at h
      rw [← h.2.1]
  · simp only [Option.some.injEq, Prod.mk.injEq] at h
    rw [← h.2.1]

/-- Fewer bytes than a header: no frame, nothing changes. -/
theorem decode_short (msg : List UInt8) (h : c.readbuf.content.length < 4) :
    decode c msg = some (false, c, msg) := by
  rw [FixedBuffer.content_length] at h
  unfold decode HEADER
  dsimp only
  rw [if_neg (by omega)]

theorem toNat_ofInt_of_lt {i : ℤ} (h₀ : 0 ≤ i) (h : i < 4294967296) :
    ((UInt32.ofInt i).toNat : ℤ) = i := by
  rw [UInt32.ofInt, UInt32.toNat_ofNat']
  omega

/-- What `decode` compares, when the whole size does not wrap. -/
theorem whole_le_iff (readable : ℤ) {length : UInt32} (h₀ : 0 ≤ readable)
    (h : readable < kBufferSize) (hwrap : length.toNat < wrapBound) :
    (length + UInt32.ofNat HEADER).toNat = length.toNat + 4 ∧
      (UInt32.ofInt readable ≥ length + UInt32.ofNat HEADER ↔
        (length.toNat : ℤ) + 4 ≤ readable) := by
  simp only [kBufferSize] at h
  simp only [wrapBound] at hwrap
  have hwhole : (length + UInt32.ofNat HEADER).toNat = length.toNat + 4 := by
    rw [UInt32.toNat_add, UInt32.toNat_ofNat', HEADER]
    omega
  have hread := toNat_ofInt_of_lt h₀ (by omega : readable < 4294967296)
  refine ⟨hwhole, ?_⟩
  rw [ge_iff_le, UInt32.le_iff_toNat_le, hwhole]
  omega

/-- A length that wraps passes the size test, and the payload is then read from beyond the
    buffer. -/
theorem decode_overrun (hc : c.readbuf.WF) (msg : List UInt8)
    (hlen : 4 ≤ c.readbuf.content.length)
    (hwrap : wrapBound ≤ lengthHeader.read c.readbuf.content) : decode c msg = none := by
  have hr := hc.reader_nonneg
  have hreadable := hc.content_length
  have hword := wordAt_content hlen
  set length := NetworkToHost32 (wordAt (c.readbuf.region c.readbuf.reader 4)) with hdef
  have hread : lengthHeader.read c.readbuf.content = length.toNat := by
    rw [hdef, hword]; rfl
  rw [hread, wrapBound] at hwrap
  have hlt := length.toNat_lt
  have hrange : c.readbuf.readable < 4294967296 := by
    have := hc.writer_lt
    simp only [kBufferSize] at this
    simp only [FixedBuffer.readable]; omega
  have hofInt := toNat_ofInt_of_lt (by omega) hrange
  -- the whole size wraps to less than a header, so any number of readable bytes is enough
  have hpass : UInt32.ofInt c.readbuf.readable ≥ length + UInt32.ofNat HEADER := by
    rw [ge_iff_le, UInt32.le_iff_toNat_le, UInt32.toNat_add, UInt32.toNat_ofNat', HEADER]
    omega
  simp only [decode]
  simp only [← hdef]
  rw [if_pos (by simp only [HEADER]; omega), if_pos hpass, if_neg]
  simp only [HEADER, kBufferSize]
  omega

/-- With a length that does not wrap, `decode` takes the frame in front, if it has arrived in
    full, and otherwise changes nothing. -/
theorem decode_eq_takeFrame (hc : c.readbuf.WF) (msg : List UInt8)
    (hlen : 4 ≤ c.readbuf.content.length)
    (hwrap : lengthHeader.read c.readbuf.content < wrapBound) :
    (lengthHeader.takeFrame c.readbuf.content = none ∧ decode c msg = some (false, c, msg)) ∨
      ∃ m rest rbuf, lengthHeader.takeFrame c.readbuf.content = some (m, rest) ∧
        decode c msg = some (true, { c with readbuf := rbuf }, msg ++ m) ∧
        rbuf.WF ∧ rbuf.content = rest := by
  have hr := hc.reader_nonneg
  have hle := hc.reader_le
  have hw := hc.writer_lt
  have hreadable := hc.content_length
  have hword := wordAt_content hlen
  set length := NetworkToHost32 (wordAt (c.readbuf.region c.readbuf.reader 4)) with hdef
  have hread : lengthHeader.read c.readbuf.content = length.toNat := by
    rw [hdef, hword]; rfl
  rw [hread] at hwrap
  obtain ⟨hwhole, hcmp⟩ := whole_le_iff c.readbuf.readable
    (by simp only [FixedBuffer.readable]; omega) (by simp only [FixedBuffer.readable]; omega) hwrap
  have hhead : c.readbuf.readable ≥ HEADER := by simp only [HEADER]; omega
  simp only [decode]
  simp only [← hdef]
  rw [if_pos hhead]
  by_cases hfull : (length.toNat : ℤ) + 4 ≤ c.readbuf.readable
  · right
    have hmem : c.readbuf.reader + HEADER + length.toNat ≤ kBufferSize := by
      simp only [FixedBuffer.readable] at hfull; simp only [HEADER]; omega
    have hn : ((length.toNat + 4 : ℕ) : ℤ) ≤ c.readbuf.readable := by omega
    have htake : lengthHeader.takeFrame c.readbuf.content =
        some ((c.readbuf.content.drop 4).take length.toNat,
          c.readbuf.content.drop (4 + length.toNat)) := by
      rw [HeaderCode.takeFrame, hread, if_pos ⟨hlen, by change 4 + _ ≤ _; omega⟩]
      rfl
    have hwf := hc.read (n := ((length.toNat + 4 : ℕ) : ℤ)) (by omega) hn
    refine ⟨_, _, (c.readbuf.read ((length.toNat + 4 : ℕ) : ℤ)).move, htake, ?_, hwf.move, ?_⟩
    · rw [if_pos (hcmp.mpr hfull), if_pos hmem, hwhole]
      have hbody : (c.readbuf.content.drop 4).take length.toNat =
          c.readbuf.region (c.readbuf.reader + HEADER) length.toNat := by
        rw [FixedBuffer.content, FixedBuffer.region_drop _ _ (by omega),
          FixedBuffer.region_take _ _ (by omega)]
        rfl
      rw [hbody]
    · rw [FixedBuffer.content_move hwf, FixedBuffer.content_read _ hn, Nat.add_comm]
  · left
    refine ⟨?_, if_neg (fun h => hfull (hcmp.mp h))⟩
    rw [HeaderCode.takeFrame, hread, if_neg]
    rintro ⟨-, h⟩
    change 4 + _ ≤ _ at h
    omega

/-! ## The decode loop -/

/-- With enough fuel the loop is the drain of the length-prefix decoder. -/
theorem decodeLoop_eq_drain {fuel : ℕ} (hc : c.readbuf.WF)
    (hfuel : c.readbuf.content.length < fuel)
    (hbelow : lengthHeader.HeadersBelow wrapBound c.readbuf.content) :
    ∃ rbuf : ChannelBuffer, rbuf.WF ∧
      rbuf.content = (lengthHeader.decoder.drain c.readbuf.content).2 ∧
      decodeLoop fuel c =
        some ((lengthHeader.decoder.drain c.readbuf.content).1, { c with readbuf := rbuf }) := by
  induction fuel generalizing c with
  | zero => omega
  | succ fuel ih =>
    by_cases hlen : c.readbuf.content.length < 4
    · have hnone : lengthHeader.decoder.step c.readbuf.content = none := by
        rw [HeaderCode.decoder_step, HeaderCode.takeFrame, if_neg]
        exact fun h => absurd h.1 (Nat.not_le.mpr hlen)
      refine ⟨c.readbuf, hc, ?_, ?_⟩
      · rw [PrefixDecoder.drain_of_none _ hnone]
      · rw [PrefixDecoder.drain_of_none _ hnone, decodeLoop, decode_short [] hlen]
    · have hhead : 4 ≤ c.readbuf.content.length := by omega
      rcases decode_eq_takeFrame hc [] hhead (hbelow.read_lt hhead) with
        ⟨hnone, hdec⟩ | ⟨m, rest, rbuf, hsome, hdec, hwf, hcontent⟩
      · refine ⟨c.readbuf, hc, ?_, ?_⟩
        · rw [PrefixDecoder.drain_of_none _ hnone]
        · rw [PrefixDecoder.drain_of_none _ hnone, decodeLoop, hdec]
      · -- a message uses up its header at least, so the fuel left is enough for the rest
        have hshrink : rest.length < c.readbuf.content.length :=
          lengthHeader.decoder.step_shrinks hsome
        obtain ⟨rbuf', hwf', hcontent', hloop⟩ :=
          ih (c := { c with readbuf := rbuf }) hwf (by rw [hcontent]; omega)
            (by rw [hcontent]; exact hbelow.tail hsome)
        rw [hcontent] at hcontent' hloop
        refine ⟨rbuf', hwf', ?_, ?_⟩
        · rw [PrefixDecoder.drain_of_some _ hsome, hcontent']
        · rw [PrefixDecoder.drain_of_some _ hsome, decodeLoop, hdec, List.nil_append]
          simp only [hloop, Option.map_some]

/-- `onData` takes every complete frame and leaves the rest. -/
theorem onData_eq_drain (hc : c.readbuf.WF)
    (hbelow : lengthHeader.HeadersBelow wrapBound c.readbuf.content) :
    ∃ rbuf : ChannelBuffer, rbuf.WF ∧
      rbuf.content = (lengthHeader.decoder.drain c.readbuf.content).2 ∧
      onData c =
        some ((lengthHeader.decoder.drain c.readbuf.content).1, { c with readbuf := rbuf }) :=
  decodeLoop_eq_drain hc (by rw [FixedBuffer.content_length]; omega) hbelow

/-- However a stream is cut into chunks, and as long as the read buffer takes them, the messages
    are those of the parse of the whole stream, and what is left is what that parse leaves. -/
theorem receive_eq_drain {chunks : List (List UInt8)} (hc : c.readbuf.WF)
    (hheld : lengthHeader.takeFrame c.readbuf.content = none) (hfit : NoOverflow c chunks)
    (hbelow : lengthHeader.HeadersBelow wrapBound (c.readbuf.content ++ chunks.flatten)) :
    ∃ rbuf : ChannelBuffer, rbuf.WF ∧
      rbuf.content = (lengthHeader.decoder.drain (c.readbuf.content ++ chunks.flatten)).2 ∧
      receive c chunks =
        some ((lengthHeader.decoder.drain (c.readbuf.content ++ chunks.flatten)).1,
          { c with readbuf := rbuf }) := by
  rw [← lengthHeader.decoder.feedAll_eq_drain _ hheld]
  induction chunks generalizing c with
  | nil => exact ⟨c.readbuf, hc, rfl, rfl⟩
  | cons chunk rest ih =>
    obtain ⟨hroom, hrest⟩ := hfit
    have hcontent := FixedBuffer.content_append_of_fits hc chunk le_rfl hroom
    rw [List.take_length] at hcontent
    rw [List.flatten_cons, ← List.append_assoc] at hbelow
    obtain ⟨rbuf, hwf, hleft, hdata⟩ :=
      onData_eq_drain (c := { c with readbuf := (c.readbuf.append chunk chunk.length).1 })
        (hc.append _ _) (by rw [hcontent]; exact hbelow.of_append _)
    simp only [hcontent] at hleft hdata
    -- what `onData` leaves holds no complete frame, as the rest of the chunks needs it
    obtain ⟨rbuf', hwf', hleft', hrec⟩ := ih (c := { c with readbuf := rbuf }) hwf
      (by rw [hleft]; exact lengthHeader.decoder.step_drain _) (hrest _ _ hdata)
      (by rw [hleft]; exact hbelow.drain_append _)
    simp only [hleft] at hleft' hrec
    refine ⟨rbuf', hwf', hleft', ?_⟩
    simp only [receive, receiveChunk, hdata, hrec, Option.map_some]
    rfl

/-- Two ways of cutting one stream deliver the same messages and leave the same bytes unread:
    the frames of the stream in order, and a rest that holds no complete frame. -/
theorem receive_chunking {chunks chunks' : List (List UInt8)} (hc : c.readbuf.WF)
    (hheld : lengthHeader.takeFrame c.readbuf.content = none)
    (hsame : chunks'.flatten = chunks.flatten) (hfit : NoOverflow c chunks)
    (hfit' : NoOverflow c chunks')
    (hbelow : lengthHeader.HeadersBelow wrapBound (c.readbuf.content ++ chunks.flatten)) :
    ∃ ms rest rbuf rbuf',
      receive c chunks = some (ms, { c with readbuf := rbuf }) ∧
      receive c chunks' = some (ms, { c with readbuf := rbuf' }) ∧
      rbuf.content = rest ∧ rbuf'.content = rest ∧
      c.readbuf.content ++ chunks.flatten = (ms.map lengthHeader.frame).flatten ++ rest ∧
      lengthHeader.takeFrame rest = none := by
  obtain ⟨rbuf, -, hleft, hrec⟩ := receive_eq_drain hc hheld hfit hbelow
  obtain ⟨rbuf', -, hleft', hrec'⟩ :=
    receive_eq_drain hc hheld hfit' (by rw [hsame]; exact hbelow)
  rw [hsame] at hleft' hrec'
  have hparse := lengthHeader.decoder.flatten_drain (f := lengthHeader.frame)
    (fun h => lengthHeader.frame_takeFrame lengthHeader_write_read h)
    (c.readbuf.content ++ chunks.flatten)
  exact ⟨_, _, rbuf, rbuf', hrec, hrec', hleft, hleft', hparse.symm,
    lengthHeader.decoder.step_drain _⟩

/-- One frame in two chunks, and in one. -/
theorem receive_chunking_split :
    ∃ ms rest rbuf rbuf',
      receive (.new 5) [[0, 0, 0], [1, 65]] = some (ms, { Channel.new 5 with readbuf := rbuf }) ∧
      receive (.new 5) [[0, 0, 0, 1, 65]] =
        some (ms, { Channel.new 5 with readbuf := rbuf' }) ∧
      rbuf.content = rest ∧ rbuf'.content = rest ∧
      (Channel.new 5).readbuf.content ++ [[0, 0, 0], [1, 65]].flatten =
        (ms.map lengthHeader.frame).flatten ++ rest ∧
      lengthHeader.takeFrame rest = none := by
  have hshort : receiveChunk (.new 5) [0, 0, 0] = some ([],
      { Channel.new 5 with readbuf := ((Channel.new 5).readbuf.append [0, 0, 0] 3).1 }) := rfl
  have hsplit : NoOverflow (.new 5) [[0, 0, 0], [1, 65]] := by
    refine ⟨by decide, fun ms c' h => ?_⟩
    rw [hshort, Option.some.injEq, Prod.mk.injEq] at h
    rw [← h.2]
    exact ⟨by decide, fun _ _ _ => trivial⟩
  refine receive_chunking (FixedBuffer.wf_fresh Channel.kBufferSize_pos) ?_ rfl hsplit
    ⟨by decide, fun _ _ _ => trivial⟩ ?_
  · decide
  · have hframe : lengthHeader.HeadersBelow wrapBound ([[65]].map lengthHeader.frame).flatten :=
      lengthHeader.headersBelow_frames (by decide)
    exact hframe

/-! ## How much is taken -/

/-- The answer `false` leaves the channel and `msg` as they were. -/
theorem decode_false {msg msg' : List UInt8} (h : decode c msg = some (false, c', msg')) :
    c' = c ∧ msg' = msg := by
  simp only [decode] at h
  split at h
  · split at h
    · split at h <;> simp at h
    · simp only [Option.some.injEq, Prod.mk.injEq, true_and] at h
      exact ⟨h.1.symm, h.2.symm⟩
  · simp only [Option.some.injEq, Prod.mk.injEq, true_and] at h
    exact ⟨h.1.symm, h.2.symm⟩

/-- A decoded message uses up its frame, whatever its header held. -/
theorem decode_true_length {msg : List UInt8} (hc : c.readbuf.WF)
    (h : decode c [] = some (true, c', msg)) :
    c'.readbuf.WF ∧
      c.readbuf.content.length = (lengthHeader.frame msg).length + c'.readbuf.content.length := by
  have hlen : 4 ≤ c.readbuf.content.length := by
    by_contra hshort
    rw [decode_short [] (by omega)] at h
    simp at h
  by_cases hwrap : lengthHeader.read c.readbuf.content < wrapBound
  · rcases decode_eq_takeFrame hc [] hlen hwrap with
      ⟨-, hdec⟩ | ⟨m, rest, rbuf, hsome, hdec, hwf, hcontent⟩
    · simp [hdec] at h
    · rw [hdec, List.nil_append, Option.some.injEq, Prod.mk.injEq, Prod.mk.injEq] at h
      obtain ⟨-, rfl, rfl⟩ := h
      exact ⟨hwf, hcontent ▸ lengthHeader.takeFrame_length hsome⟩
  · simp [decode_overrun hc [] hlen (by omega)] at h

theorem decodeLoop_length {fuel : ℕ} {ms : List (List UInt8)} (hc : c.readbuf.WF)
    (h : decodeLoop fuel c = some (ms, c')) :
    c.readbuf.content.length =
      (ms.map lengthHeader.frame).flatten.length + c'.readbuf.content.length := by
  induction fuel generalizing c ms with
  | zero => simp [decodeLoop] at h
  | succ fuel ih =>
    rw [decodeLoop] at h
    split at h
    · simp at h
    · rename_i c₁ _ hdec
      rw [Option.some.injEq, Prod.mk.injEq] at h
      obtain ⟨rfl, rfl⟩ := h
      rw [(decode_false hdec).1]
      simp
    · rename_i c₁ msg hdec
      obtain ⟨hwf, hlen⟩ := decode_true_length hc hdec
      obtain ⟨⟨rest, c₂⟩, hloop, hout⟩ := Option.map_eq_some_iff.mp h
      simp only [Prod.mk.injEq] at hout
      obtain ⟨rfl, rfl⟩ := hout
      have hrest := ih hwf hloop
      rw [List.map_cons, List.flatten_cons, List.length_append]
      omega

/-! ## Exactly one frame -/

/-- A whole frame is there, with its size in unbounded numbers. -/
def HoldsFrame (c : Channel) : Prop :=
  4 ≤ c.readbuf.content.length ∧
    4 + lengthHeader.read c.readbuf.content ≤ c.readbuf.content.length

/-- `decode` takes the frame in front, its payload joining `msg`, if a whole one is there, and
    otherwise answers `false` and changes nothing. -/
structure TakesOneFrame (c : Channel) (msg : List UInt8) : Prop where
  frame : HoldsFrame c → ∃ rbuf : ChannelBuffer,
    decode c msg = some (true, { c with readbuf := rbuf },
      msg ++ (c.readbuf.content.drop 4).take (lengthHeader.read c.readbuf.content)) ∧
    rbuf.content = c.readbuf.content.drop (4 + lengthHeader.read c.readbuf.content)
  nothing : ¬ HoldsFrame c → decode c msg = some (false, c, msg)

theorem takesOneFrame_of_short (msg : List UInt8) (h : c.readbuf.content.length < 4) :
    TakesOneFrame c msg := by
  refine ⟨fun hframe => ?_, fun _ => decode_short msg h⟩
  have := hframe.1
  omega

theorem takesOneFrame_of_below (hc : c.readbuf.WF) (msg : List UInt8)
    (hlen : 4 ≤ c.readbuf.content.length)
    (hwrap : lengthHeader.read c.readbuf.content < wrapBound) : TakesOneFrame c msg := by
  rcases decode_eq_takeFrame hc msg hlen hwrap with
    ⟨hnone, hdec⟩ | ⟨m, rest, rbuf, hsome, hdec, -, hcontent⟩
  · have hno : ¬ HoldsFrame c := by
      intro hframe
      rw [HeaderCode.takeFrame] at hnone
      split at hnone
      · cases hnone
      · rename_i hno
        exact hno hframe
    exact ⟨fun hframe => absurd hframe hno, fun _ => hdec⟩
  · obtain ⟨hle, rfl, rfl⟩ := lengthHeader.takeFrame_eq_some hsome
    exact ⟨fun _ => ⟨rbuf, hdec, hcontent⟩, fun hno => absurd ⟨hlen, hle⟩ hno⟩

/-- Where `decode` runs past the buffer it answers nothing at all. -/
theorem not_takesOneFrame_of_wrap (hc : c.readbuf.WF) (msg : List UInt8)
    (hlen : 4 ≤ c.readbuf.content.length)
    (hwrap : wrapBound ≤ lengthHeader.read c.readbuf.content) : ¬ TakesOneFrame c msg := by
  intro h
  have hover := decode_overrun hc msg hlen hwrap
  by_cases hframe : HoldsFrame c
  · obtain ⟨rbuf, hdec, -⟩ := h.frame hframe
    cases hover.symm.trans hdec
  · cases hover.symm.trans (h.nothing hframe)

/-- A loop that comes to its end has met no header that wraps. -/
theorem headersBelow_of_decodeLoop {fuel : ℕ} {out : List (List UInt8) × Channel}
    (hc : c.readbuf.WF) (h : decodeLoop fuel c = some out) :
    lengthHeader.HeadersBelow wrapBound c.readbuf.content := by
  induction fuel generalizing c out with
  | zero => cases h
  | succ fuel ih =>
    by_cases hlen : 4 ≤ c.readbuf.content.length
    · by_cases hwrap : lengthHeader.read c.readbuf.content < wrapBound
      · rcases decode_eq_takeFrame hc [] hlen hwrap with
          ⟨hnone, -⟩ | ⟨m, rest, rbuf, hsome, hdec, hwf, hcontent⟩
        · exact .waiting hwrap hnone
        · -- the rest of the loop runs on what is left
          rw [decodeLoop, hdec] at h
          obtain ⟨out', hrest, -⟩ := Option.map_eq_some_iff.mp h
          have hbelow := ih (c := { c with readbuf := rbuf }) hwf hrest
          rw [hcontent] at hbelow
          exact .frame hwrap hsome hbelow
      · rw [decodeLoop, decode_overrun hc [] hlen (by omega)] at h
        cases h
    · exact .short (Nat.lt_of_not_le hlen)

/-- On every content of the read buffer: `decode` takes exactly one frame or nothing if and only if
    the header, if one is there, holds a length below 2³² - 4. The loop of `onData` comes to its
    end if and only if that is so of every header along the parse of the content. -/
theorem takesOneFrame_iff (c : Channel) (msg : List UInt8) (hc : c.readbuf.WF) :
    (TakesOneFrame c msg ↔
      (4 ≤ c.readbuf.content.length → lengthHeader.read c.readbuf.content < wrapBound)) ∧
    ((onData c).isSome ↔ lengthHeader.HeadersBelow wrapBound c.readbuf.content) := by
  constructor
  · constructor
    · intro h hlen
      by_contra hwrap
      exact not_takesOneFrame_of_wrap hc msg hlen (by omega) h
    · intro h
      by_cases hlen : 4 ≤ c.readbuf.content.length
      · exact takesOneFrame_of_below hc msg hlen (h hlen)
      · exact takesOneFrame_of_short msg (by omega)
  · constructor
    · intro h
      obtain ⟨out, hout⟩ := Option.isSome_iff_exists.mp h
      exact headersBelow_of_decodeLoop hc hout
    · intro h
      obtain ⟨rbuf, -, -, hdata⟩ := onData_eq_drain hc h
      exact Option.isSome_iff_exists.mpr ⟨_, hdata⟩

/-- A header that announces 2³² - 4 bytes, and nothing behind it. -/
def wrappingHeader : Channel :=
  let c := Channel.new 5
  { c with readbuf := (c.readbuf.append [255, 255, 255, 252] 4).1 }

theorem wrappingHeader_wf : wrappingHeader.readbuf.WF :=
  (FixedBuffer.wf_fresh Channel.kBufferSize_pos).append _ _

/-- The whole size wraps to zero, and `decode` takes the frame for complete. -/
theorem decode_wraps :
    ¬ ∀ (c : Channel) (msg : List UInt8), c.readbuf.WF → TakesOneFrame c msg := by
  intro h
  have hcontent : wrappingHeader.readbuf.content = [255, 255, 255, 252] := by decide
  refine not_takesOneFrame_of_wrap wrappingHeader_wf [] ?_ ?_ (h _ [] wrappingHeader_wf)
  · rw [hcontent]
    decide
  · rw [hcontent]
    decide

theorem takesOneFrame_wrapping :
    (TakesOneFrame wrappingHeader [] ↔
      (4 ≤ wrappingHeader.readbuf.content.length →
        lengthHeader.read wrappingHeader.readbuf.content < wrapBound)) ∧
    ((onData wrappingHeader).isSome ↔
      lengthHeader.HeadersBelow wrapBound wrappingHeader.readbuf.content) :=
  takesOneFrame_iff wrappingHeader [] wrappingHeader_wf

end TcpLengthCoder

end Codechiev
