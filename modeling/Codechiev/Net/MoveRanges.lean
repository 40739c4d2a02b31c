import Codechiev.Library.Transition
import Codechiev.Net.Http.HttpServer
import Codechiev.Net.TcpLengthCoder

/-!
# Where `move` copies to

`FixedBuffer::move` is a `memcpy` within one array, which is defined only where its two ranges have
no byte in common. `decode` and `onMessage` call it each time they have taken something off the
front of the read buffer, and it starts at the front of the array each time, so the ranges are
apart exactly if at least half of the readable bytes were taken (`memcpy_defined_iff`). Requests
that are sent in a row leave more than that.
-/

namespace Codechiev

/-- The `memcpy` of `move` copies nothing, or between ranges that are apart. -/
def FixedBuffer.MoveDefined {N : ℕ} (b : FixedBuffer N) : Prop :=
  b.readable = 0 ∨ ∀ i, b.reader ≤ i ∧ i < b.reader + b.readable → ¬ (0 ≤ i ∧ i < b.readable)

/-- The ranges are apart if what is left to read is no longer than what lies in front of it. -/
theorem FixedBuffer.WF.moveDefined_iff {N : ℕ} {b : FixedBuffer N} (hb : b.WF) :
    b.MoveDefined ↔ b.readable ≤ b.reader := by
  have hreader := hb.reader_nonneg
  have hle := hb.reader_le
  have hreadable : b.readable = b.writer - b.reader := rfl
  constructor
  · rintro (hempty | hapart)
    · omega
    · by_contra hlt
      exact hapart b.reader ⟨le_refl _, by omega⟩ ⟨hreader, not_le.mp hlt⟩
  · intro hfront
    right
    intro i hsource hdest
    omega

/-- `decode` on the tests that it makes: the size that it passes to `read` before it calls `move`,
    if it finds a frame. -/
def TcpLengthCoder.frameSize (c : Channel) : Option ℕ :=
  let rbuf := c.readbuf
  let readable := rbuf.readable
  if readable ≥ HEADER then
    let length := NetworkToHost32 (wordAt (rbuf.region rbuf.reader 4))
    let whole := length + UInt32.ofNat HEADER
    if UInt32.ofInt readable ≥ whole then
      if rbuf.reader + HEADER + length.toNat ≤ kBufferSize then some whole.toNat else none
    else none
  else none

/-- The iteration of `onMessage`, likewise. -/
def HttpServer.blockSize (c : Channel) : Option ℕ :=
  (c.readbuf.cString.bind HttpServer.strstr).map (· + 4)

/-- `decode` takes a frame off the read buffer exactly if there is a size for it. -/
theorem TcpLengthCoder.decode_iff_frameSize {c c' : Channel} {msg : List UInt8} :
    (∃ msg', decode c msg = some (true, c', msg')) ↔
      ∃ n, frameSize c = some n ∧ c' = { c with readbuf := (c.readbuf.read n).move } := by
  simp only [decode, frameSize]
  split_ifs <;> simp [eq_comm]

/-- An iteration of `onMessage` takes a block off it exactly if there is a size for that. -/
theorem HttpServer.takeMessage_iff_blockSize {c c' : Channel} :
    (∃ str len, c.readbuf.cString = some str ∧ strstr str = some len ∧
        c' = (takeMessage c len).2) ↔
      ∃ n, blockSize c = some n ∧ c' = { c with readbuf := (c.readbuf.read n).move } := by
  constructor
  · rintro ⟨str, len, hstr, hlen, rfl⟩
    refine ⟨len + 4, ?_, rfl⟩
    rw [blockSize, hstr, Option.bind_some, hlen, Option.map_some]
  · rintro ⟨n, hn, rfl⟩
    obtain ⟨len, hfound, rfl⟩ := Option.map_eq_some_iff.mp hn
    obtain ⟨str, hstr, hlen⟩ := Option.bind_eq_some_iff.mp hfound
    exact ⟨str, len, hstr, hlen, rfl⟩

/-- The frame has arrived as a whole. -/
theorem TcpLengthCoder.frameSize_le {c : Channel} {n : ℕ} (hc : c.readbuf.WF)
    (h : frameSize c = some n) : (n : ℤ) ≤ c.readbuf.readable := by
  have hwriter := hc.writer_lt
  have hreader := hc.reader_nonneg
  have hle := hc.reader_le
  have hreadable : c.readbuf.readable = c.readbuf.writer - c.readbuf.reader := rfl
  simp only [kBufferSize] at hwriter
  simp only [frameSize] at h
  split_ifs at h with hhead hwhole hmem
  rw [ge_iff_le, UInt32.le_iff_toNat_le, Option.some.inj h] at hwhole
  have hint := toNat_ofInt_of_lt (i := c.readbuf.readable) (by omega) (by omega)
  omega

/-- What takes something off the front of the read buffer. -/
inductive Framing where
  | lengthCoded
  | http

namespace Framing

/-- How much the next step takes, if there is something to take. -/
def front : Framing → Channel → Option ℕ
  | lengthCoded => TcpLengthCoder.frameSize
  | http => HttpServer.blockSize

/-- Bytes arrive in the read buffer, or a step takes `n` off it. -/
inductive ReadStep where
  | arrive (bytes : List UInt8) (len : ℤ)
  | consume (n : ℕ)

/-- The read buffer of a connection. `onRead` appends what `::read` answered, and `decode` or
    `onMessage` may follow at any time. -/
def readRuns (p : Framing) : LabelledSystem Channel ReadStep where
  init c := ∃ fd, c = .new fd
  step c l c' :=
    match l with
    | .arrive bytes len =>
      len ≤ bytes.length ∧ c' = { c with readbuf := (c.readbuf.append bytes len).1 }
    | .consume n => p.front c = some n ∧ c' = { c with readbuf := (c.readbuf.read n).move }

variable {p : Framing} {c c' : Channel} {n : ℕ}

/-- What a step takes is there to be read. -/
theorem front_le (hc : c.readbuf.WF) (h : p.front c = some n) : (n : ℤ) ≤ c.readbuf.readable := by
  cases p with
  | lengthCoded => exact TcpLengthCoder.frameSize_le hc h
  | http =>
    obtain ⟨len, hfound, rfl⟩ := Option.map_eq_some_iff.mp h
    obtain ⟨str, hstr, hlen⟩ := Option.bind_eq_some_iff.mp hfound
    exact HttpServer.found_within hc hstr hlen

/-- Every step leaves the readable bytes at the front of the array. -/
structure AtFront (c : Channel) : Prop where
  wf : c.readbuf.WF
  reader : c.readbuf.reader = 0

theorem AtFront.of_reachable (h : (readRuns p).Reachable c) : AtFront c := by
  refine h.invariant ?_ ?_
  · rintro c ⟨fd, rfl⟩
    exact ⟨FixedBuffer.wf_fresh Channel.kBufferSize_pos, rfl⟩
  · rintro c l c' - hc hstep
    cases l with
    | arrive bytes len =>
      obtain ⟨-, rfl⟩ := hstep
      exact ⟨hc.wf.append bytes len, FixedBuffer.append_reader.trans hc.reader⟩
    | consume n =>
      obtain ⟨hfront, rfl⟩ := hstep
      have hle := front_le hc.wf hfront
      exact ⟨(hc.wf.read (Int.natCast_nonneg n) hle).move, rfl⟩

/-- For every read buffer that can be reached, and every step that takes something off it: at its
    call of `move` the `memcpy` is defined if and only if at least half of the readable bytes are
    taken. -/
theorem memcpy_defined_iff (p : Framing) (c : Channel) (n : ℕ) (h : (readRuns p).Reachable c)
    (hfront : p.front c = some n) :
    (c.readbuf.read n).MoveDefined ↔ c.readbuf.readable ≤ 2 * n := by
  have hc := AtFront.of_reachable h
  have hwf := hc.wf.read (Int.natCast_nonneg n) (front_le hc.wf hfront)
  have hreader : (c.readbuf.read n).reader = n := by
    show c.readbuf.reader + n = n
    rw [hc.reader, zero_add]
  rw [hwf.moveDefined_iff, FixedBuffer.readable_read, hreader]
  omega

/-- A new connection on which the bytes have arrived. -/
def received (bytes : List UInt8) : Channel :=
  { Channel.new 5 with readbuf := ((Channel.new 5).readbuf.append bytes bytes.length).1 }

theorem received_reachable (p : Framing) (bytes : List UInt8) :
    (readRuns p).Reachable (received bytes) :=
  .next (.arrive bytes bytes.length) (.start ⟨5, rfl⟩) ⟨le_rfl, rfl⟩

/-- Two messages of one byte. -/
theorem memcpy_defined_twoFrames :
    ((received [0, 0, 0, 1, 65, 0, 0, 0, 1, 66]).readbuf.read (5 : ℕ)).MoveDefined := by
  refine (memcpy_defined_iff .lengthCoded _ 5 (received_reachable _ _) ?_).mpr ?_
  · decide
  · decide

/-- Three of them in a row: the ten bytes that are left are copied five places to the front. -/
theorem memcpy_overlaps :
    ¬ ∀ (p : Framing) (c : Channel) (n : ℕ), (readRuns p).Reachable c → p.front c = some n →
      (c.readbuf.read n).MoveDefined := by
  intro h
  have hreach := received_reachable .lengthCoded [0, 0, 0, 1, 65, 0, 0, 0, 1, 66, 0, 0, 0, 1, 67]
  have hdefined := h _ _ 5 hreach (by decide)
  rw [((AtFront.of_reachable hreach).wf.read (by decide) (by decide)).moveDefined_iff] at hdefined
  revert hdefined
  decide

end Framing

end Codechiev
