import Codechiev.Library.ScriptLoop
import Codechiev.Net.InputStream

/-!
# Hard errors in the socket loops

`onRead` and `onWrite` loop until an answer of the socket makes them return. Their last branch,
which logs an error and returns, is behind `if(len)` and `else if(len==0)` and is never taken: on
-1 the loop goes on. A socket that fails for good therefore keeps the loop running for ever, unless
an answer before ended it (`returns_on_hard_errors_iff`), and every failing `::write` moves the
reader of the write buffer back by one.
-/

namespace Codechiev

def EINTR : Errno := 4
def ECONNRESET : Errno := 104

/-- A failure that trying again does not mend. -/
def Errno.Hard (e : Errno) : Prop := e ≠ EAGAIN ∧ e ≠ EINTR

/-- The call failed with a hard error. -/
def ReadResult.Failed (r : ReadResult) : Prop := ∃ e, e.Hard ∧ r = .error e

/-- The call failed with a hard error. -/
def WriteResult.Failed (r : WriteResult) : Prop := ∃ e, e.Hard ∧ r = .error e

/-- An answer of the script ends `onRead`, from the `errno` at entry. -/
def ReadResult.EndsWithin : Errno → List ReadResult → Prop
  | _, [] => False
  | errno, r :: rs => r.Ends errno ∨ EndsWithin (r.errno errno) rs

/-- An answer of the script ends `onWrite`, from the `errno` at entry. -/
def WriteResult.EndsWithin : Errno → List WriteResult → Prop
  | _, [] => False
  | errno, r :: rs => r.Ends errno ∨ EndsWithin (r.errno errno) rs

instance : (errno : Errno) → (script : List ReadResult) →
    Decidable (ReadResult.EndsWithin errno script)
  | _, [] => isFalse id
  | errno, r :: rs =>
    have := instDecidableEndsWithin (r.errno errno) rs
    inferInstanceAs (Decidable (_ ∨ _))

instance : (errno : Errno) → (script : List WriteResult) →
    Decidable (WriteResult.EndsWithin errno script)
  | _, [] => isFalse id
  | errno, r :: rs =>
    have := instDecidableEndsWithin_1 (r.errno errno) rs
    inferInstanceAs (Decidable (_ ∨ _))

/-- An answer of the script ends `onWrite`, and no answer before it is a hard error. -/
def WriteResult.EndsUnfailed : Errno → List WriteResult → Prop
  | _, [] => False
  | errno, r :: rs => r.Ends errno ∨ ¬ r.Failed ∧ EndsUnfailed (r.errno errno) rs

/-- Both indices are as they were, and in order. -/
structure FixedBuffer.Unmoved {N : ℕ} (b b' : FixedBuffer N) : Prop where
  reader : b'.reader = b.reader
  writer : b'.writer = b.writer
  reader_nonneg : 0 ≤ b'.reader
  reader_le : b'.reader ≤ b'.writer

theorem WriteResult.Failed.not_ends {r : WriteResult} (h : r.Failed) (old : Errno) :
    ¬ r.Ends old := by
  obtain ⟨e, he, rfl⟩ := h
  rintro (hlen | herr)
  · cases hlen
  · exact he.1 herr

theorem WriteResult.EndsUnfailed.endsWithin {ws : List WriteResult} {errno : Errno}
    (h : EndsUnfailed errno ws) : EndsWithin errno ws := by
  induction ws generalizing errno with
  | nil => exact h
  | cons r ws ih =>
    rcases h with hends | ⟨-, hrest⟩
    · exact .inl hends
    · exact .inr (ih hrest)

namespace TcpEndpoint

variable {p : Ptr} {hasOnData : Bool} {io : ChannelCall} {e : Errno}

/-- The loop of `onRead`. -/
def readLoop (p : Ptr) (hasOnData : Bool) : ScriptLoop ChannelCall ReadResult ReadExit :=
  ⟨onReadIter p hasOnData⟩

/-- The loop of `onWrite`. -/
def writeLoop (p : Ptr) : ScriptLoop ChannelCall WriteResult Bool := ⟨onWriteIter p⟩

theorem onRead_eq_run : onRead p hasOnData = (readLoop p hasOnData).run := by
  funext io rs
  induction rs generalizing io with
  | nil => rfl
  | cons r rs ih =>
    simp only [onRead, ScriptLoop.run, ih, readLoop]
    rcases onReadIter p hasOnData io r with ⟨io', _ | exit⟩ <;> rfl

theorem onWrite_eq_run : onWrite p = (writeLoop p).run := by
  funext io rs
  induction rs generalizing io with
  | nil => rfl
  | cons r rs ih =>
    simp only [onWrite, ScriptLoop.run, ih, writeLoop]
    rcases onWriteIter p io r with ⟨io', _ | ret⟩ <;> rfl

/-- When `::read` answers `rs` and then fails with `e` for ever: `onRead` returns, and every
    failing call leaves the indices of the read buffer as they are. -/
def ReadEnds (p : Ptr) (hasOnData : Bool) (io : ChannelCall) (rs : List ReadResult)
    (e : Errno) : Prop :=
  (∃ n, (onRead p hasOnData io (rs ++ List.replicate n (.error e))).isSome) ∧
    ∀ n, ∀ t ∈ (readLoop p hasOnData).turns io (rs ++ List.replicate n (.error e)),
      t.2.Failed →
        t.1.channel.readbuf.Unmoved (onReadIter p hasOnData t.1 t.2).1.channel.readbuf

/-- When `::write` answers `ws` and then fails with `e` for ever: `onWrite` returns, and every
    failing call leaves the indices of the write buffer as they are. -/
def WriteEnds (p : Ptr) (io : ChannelCall) (ws : List WriteResult) (e : Errno) : Prop :=
  (∃ n, (onWrite p io (ws ++ List.replicate n (.error e))).isSome) ∧
    ∀ n, ∀ t ∈ (writeLoop p).turns io (ws ++ List.replicate n (.error e)),
      t.2.Failed →
        t.1.channel.writebuf.Unmoved (onWriteIter p t.1 t.2).1.channel.writebuf

/-! ## `onRead` -/

theorem readLoop_return (io : ChannelCall) (r : ReadResult) :
    (((readLoop p hasOnData).iter io r).2.isSome : Prop) ↔ r.Ends io.errno := by
  show ((onReadIter p hasOnData io r).2.isSome : Prop) ↔ _
  rw [onReadIter_return]
  split <;> simp [*]

theorem readLoop_ends_iff (rs : List ReadResult) :
    (readLoop p hasOnData).Ends io rs ↔ ReadResult.EndsWithin io.errno rs := by
  induction rs generalizing io with
  | nil => rfl
  | cons r rs ih =>
    rw [ScriptLoop.Ends, readLoop_return, ih]
    show _ ∨ ReadResult.EndsWithin (onReadIter p hasOnData io r).1.errno rs ↔ _
    rw [onReadIter_errno]
    rfl

/-- `onRead` returns exactly if an answer ends it. -/
theorem onRead_ends_iff (rs : List ReadResult) :
    (onRead p hasOnData io rs).isSome ↔ ReadResult.EndsWithin io.errno rs := by
  rw [onRead_eq_run, ScriptLoop.run_isSome_iff, readLoop_ends_iff]

/-- No iteration returns on a hard error. -/
theorem readLoop_goes_on (he : e.Hard) (io : ChannelCall) :
    ((readLoop p hasOnData).iter io (.error e)).2 = none := by
  rw [← Option.not_isSome_iff_eq_none, readLoop_return]
  rintro (hlen | herr)
  · cases hlen
  · exact he.1 herr

/-- `onRead` returns only if an answer before the errors made it. -/
theorem onRead_isSome_iff (he : e.Hard) (rs : List ReadResult) (n : ℕ) :
    (onRead p hasOnData io (rs ++ List.replicate n (.error e))).isSome ↔
      ReadResult.EndsWithin io.errno rs := by
  rw [onRead_eq_run, ScriptLoop.run_isSome_iff,
    ScriptLoop.ends_append_replicate (readLoop_goes_on he), readLoop_ends_iff]

/-- The indices of the read buffer stay in order through the loop. -/
theorem readLoop_ordered
    (hb : 0 ≤ io.channel.readbuf.reader ∧ io.channel.readbuf.reader ≤ io.channel.readbuf.writer)
    (rs : List ReadResult) :
    ∀ t ∈ (readLoop p hasOnData).turns io rs,
      0 ≤ t.1.channel.readbuf.reader ∧
        t.1.channel.readbuf.reader ≤ t.1.channel.readbuf.writer := by
  apply ScriptLoop.turns_invariant (I := fun io : ChannelCall =>
    0 ≤ io.channel.readbuf.reader ∧ io.channel.readbuf.reader ≤ io.channel.readbuf.writer) hb
  intro io r hio _
  show 0 ≤ (onReadIter p hasOnData io r).1.channel.readbuf.reader ∧
    (onReadIter p hasOnData io r).1.channel.readbuf.reader ≤
      (onReadIter p hasOnData io r).1.channel.readbuf.writer
  rw [onReadIter_readbuf, FixedBuffer.append_writer, FixedBuffer.append_reader]
  omega

/-- A failing `::read` appends nothing. -/
theorem onReadIter_failed {r : ReadResult} (h : r.Failed) :
    (onReadIter p hasOnData io r).1.channel.readbuf = io.channel.readbuf := by
  obtain ⟨e, -, rfl⟩ := h
  have hlen : (ReadResult.error e).len ≤ 0 := Int.negSucc_le_zero 0
  rw [onReadIter_readbuf, FixedBuffer.append, if_pos hlen]

theorem readEnds_iff (he : e.Hard)
    (hb : 0 ≤ io.channel.readbuf.reader ∧ io.channel.readbuf.reader ≤ io.channel.readbuf.writer)
    (rs : List ReadResult) :
    ReadEnds p hasOnData io rs e ↔ ReadResult.EndsWithin io.errno rs := by
  constructor
  · rintro ⟨⟨n, hn⟩, -⟩
    exact (onRead_isSome_iff he rs n).mp hn
  · intro hends
    refine ⟨⟨0, (onRead_isSome_iff he rs 0).mpr hends⟩, ?_⟩
    intro n t ht hfailed
    obtain ⟨hr, hw⟩ := readLoop_ordered hb _ t ht
    rw [onReadIter_failed hfailed]
    exact ⟨rfl, rfl, hr, hw⟩

/-! ## `onWrite` -/

theorem writeLoop_return (io : ChannelCall) (r : WriteResult) :
    (((writeLoop p).iter io r).2.isSome : Prop) ↔ r.Ends io.errno := by
  show ((onWriteIter p io r).2.isSome : Prop) ↔ _
  rw [onWriteIter_return]
  split <;> simp [*]

theorem writeLoop_ends_iff (rs : List WriteResult) :
    (writeLoop p).Ends io rs ↔ WriteResult.EndsWithin io.errno rs := by
  induction rs generalizing io with
  | nil => rfl
  | cons r rs ih =>
    rw [ScriptLoop.Ends, writeLoop_return, ih]
    show _ ∨ WriteResult.EndsWithin (onWriteIter p io r).1.errno rs ↔ _
    rw [onWriteIter_errno]
    rfl

/-- `onWrite` returns exactly if an answer ends it. -/
theorem onWrite_ends_iff (rs : List WriteResult) :
    (onWrite p io rs).isSome ↔ WriteResult.EndsWithin io.errno rs := by
  rw [onWrite_eq_run, ScriptLoop.run_isSome_iff, writeLoop_ends_iff]

/-- A failing `::write` moves the reader back by one. -/
theorem onWriteIter_failed {r : WriteResult} (h : r.Failed) :
    (onWriteIter p io r).1.channel.writebuf.reader = io.channel.writebuf.reader - 1 := by
  obtain ⟨e, -, rfl⟩ := h
  have hlen : (WriteResult.error e).len ≠ 0 := by
    intro hzero
    cases hzero
  rw [(onWriteIter_of_ne_zero p io hlen).1]
  rfl

theorem onWriteIter_moves {r : WriteResult} (h : r.Failed) :
    ¬ io.channel.writebuf.Unmoved (onWriteIter p io r).1.channel.writebuf := by
  intro hstill
  have hback : (onWriteIter p io r).1.channel.writebuf.reader =
      io.channel.writebuf.reader - 1 := onWriteIter_failed h
  have hsame := hstill.reader
  omega

/-- On a script that ends the loop before any hard error, `onWrite` returns. -/
theorem onWrite_returns {ws : List WriteResult} (h : WriteResult.EndsUnfailed io.errno ws) :
    (onWrite p io ws).isSome := (onWrite_ends_iff ws).mpr h.endsWithin

/-- And no call of `::write` before it fails, whatever the script holds after it. -/
theorem writeLoop_unfailed {ws : List WriteResult} (h : WriteResult.EndsUnfailed io.errno ws)
    (rest : List WriteResult) : ∀ t ∈ (writeLoop p).turns io (ws ++ rest), ¬ t.2.Failed := by
  induction ws generalizing io with
  | nil => cases h
  | cons r ws ih =>
    rw [List.cons_append]
    by_cases hends : r.Ends io.errno
    · rw [ScriptLoop.turns_of_return ((writeLoop_return io r).mpr hends)]
      simpa using fun hfailed : r.Failed => hfailed.not_ends _ hends
    · obtain ⟨hok, hrest⟩ := h.resolve_left hends
      rw [ScriptLoop.turns_of_none (Option.not_isSome_iff_eq_none.mp
        fun hret => hends ((writeLoop_return io r).mp hret))]
      refine List.forall_mem_cons.mpr ⟨hok, ih ?_⟩
      show WriteResult.EndsUnfailed (onWriteIter p io r).1.errno ws
      rwa [onWriteIter_errno]

/-- On any other script a call of `::write` fails, at the latest behind it. -/
theorem writeLoop_fails (he : e.Hard) {ws : List WriteResult}
    (h : ¬ WriteResult.EndsUnfailed io.errno ws) :
    ∃ t ∈ (writeLoop p).turns io (ws ++ List.replicate 1 (.error e)), t.2.Failed := by
  induction ws generalizing io with
  | nil => exact ⟨(io, .error e), List.mem_cons_self, e, he, rfl⟩
  | cons r ws ih =>
    have hgo : ¬ r.Ends io.errno := fun hends => h (.inl hends)
    rw [List.cons_append, ScriptLoop.turns_of_none (Option.not_isSome_iff_eq_none.mp
      fun hret => hgo ((writeLoop_return io r).mp hret))]
    by_cases hfailed : r.Failed
    · exact ⟨(io, r), List.mem_cons_self, hfailed⟩
    · have hrest : ¬ WriteResult.EndsUnfailed (onWriteIter p io r).1.errno ws := by
        rw [onWriteIter_errno]
        exact fun hends => h (.inr ⟨hfailed, hends⟩)
      obtain ⟨t, ht, hfail⟩ := ih hrest
      exact ⟨t, List.mem_cons_of_mem _ ht, hfail⟩

theorem writeEnds_iff (he : e.Hard) (ws : List WriteResult) :
    WriteEnds p io ws e ↔ WriteResult.EndsUnfailed io.errno ws := by
  constructor
  · rintro ⟨-, hstill⟩
    by_contra hnot
    obtain ⟨t, ht, hfailed⟩ := writeLoop_fails (p := p) he hnot
    exact onWriteIter_moves hfailed (hstill 1 t ht hfailed)
  · intro hends
    refine ⟨⟨0, ?_⟩, fun n t ht hfailed => ?_⟩
    · rw [List.replicate_zero, List.append_nil]
      exact onWrite_returns hends
    · exact absurd hfailed (writeLoop_unfailed hends _ t ht)

/-! ## Both loops -/

/-- For every state of a channel whose read indices are in order, and every script of answers that
    from some point on fails with one hard error: `onRead` returns, its failing calls leaving the
    indices alone, if and only if an answer ends it before that point; and `onWrite` does if and
    only if an answer ends it before the first hard error. -/
theorem returns_on_hard_errors_iff (p : Ptr) (hasOnData : Bool) (io : ChannelCall) (e : Errno)
    (rs : List ReadResult) (ws : List WriteResult) (he : e.Hard)
    (hb : 0 ≤ io.channel.readbuf.reader ∧
      io.channel.readbuf.reader ≤ io.channel.readbuf.writer) :
    (ReadEnds p hasOnData io rs e ↔ ReadResult.EndsWithin io.errno rs) ∧
      (WriteEnds p io ws e ↔ WriteResult.EndsUnfailed io.errno ws) :=
  ⟨readEnds_iff he hb rs, writeEnds_iff he ws⟩

/-- A call on a new channel with one byte to send. -/
def oneByteQueued : ChannelCall := ⟨(Channel.new 5).write [65], fun _ => none, 0, []⟩

theorem econnreset_hard : Errno.Hard ECONNRESET := ⟨by decide, by decide⟩

/-- The peer resets the connection: neither loop ends well. -/
theorem reset_keeps_looping :
    ¬ ReadEnds 0 true oneByteQueued [] ECONNRESET ∧ ¬ WriteEnds 0 oneByteQueued [] ECONNRESET := by
  constructor
  · intro h
    exact (readEnds_iff econnreset_hard ⟨le_rfl, le_rfl⟩ []).mp h
  · intro h
    exact (writeEnds_iff econnreset_hard []).mp h

theorem drained_before_reset :
    ReadEnds 0 true oneByteQueued [.data [65], .error EAGAIN] ECONNRESET ∧
      WriteEnds 0 oneByteQueued [.count 1, .count 0] ECONNRESET := by
  obtain ⟨hread, hwrite⟩ := returns_on_hard_errors_iff 0 true oneByteQueued ECONNRESET
    [.data [65], .error EAGAIN] [.count 1, .count 0] econnreset_hard ⟨le_rfl, le_rfl⟩
  refine ⟨hread.mpr (.inr (.inl (.inr rfl))), hwrite.mpr (.inr ⟨?_, .inl (.inl rfl)⟩)⟩
  rintro ⟨e, -, heq⟩
  cases heq

end TcpEndpoint

end Codechiev
