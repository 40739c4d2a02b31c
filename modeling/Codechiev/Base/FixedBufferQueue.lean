import Codechiev.Library.BoundedQueue
import Codechiev.Base.FixedBuffer

/-!
# `FixedBuffer` as a bounded queue

The operations of `FixedBuffer` with their assertions: one that fails is `none`. On a buffer that
came about by `append`, `read` within `readable()`, `move` and `readall`, none fails, and the
readable bytes are the content of a bounded queue with `BUFFER_SIZE - 1` places
(`refines_queue`).
-/

namespace Codechiev

namespace FixedBuffer

variable {N : ℕ}

namespace Checked

/-- `readable()`. -/
def readable (b : FixedBuffer N) : Option ℤ :=
  let rb := b.writer - b.reader
  if rb ≥ 0 then some rb else none

/-- `writable()`. -/
def writable (b : FixedBuffer N) : Option ℤ :=
  let wb := (N - 1 : ℤ) - b.writer
  if wb ≥ 0 then some wb else none

/-- `write(int len)`. -/
def write (b : FixedBuffer N) (len : ℤ) : Option (FixedBuffer N) :=
  let b := { b with writer := b.writer + len }
  if b.writer < (N : ℤ) then some (b.clearCell b.writer) else none

/-- `append(const char *str, int len)`. -/
def append (b : FixedBuffer N) (str : List UInt8) (len : ℤ) : Option (FixedBuffer N) :=
  if len ≤ 0 then some b
  else
    match writable b with
    | none => none
    | some wb =>
      if wb > len then write (b.memcpy b.writer str len) len
      else if wb > 0 then write (b.memcpy b.writer str wb) wb
      else some b

/-- `move()`. -/
def move (b : FixedBuffer N) : Option (FixedBuffer N) :=
  match readable b with
  | none => none
  | some rb =>
    let moved := b.memcpy 0 (b.region b.reader rb.toNat) rb
    some ({ moved with reader := 0, writer := rb }.clearCell rb)

end Checked

/-- A call of one of the operations. -/
inductive Op where
  | append (str : List UInt8) (len : ℤ)
  | read (len : ℤ)
  | move
  | readall

/-- The call, with its assertions. -/
def perform (b : FixedBuffer N) : Op → Option (FixedBuffer N)
  | .append str len => Checked.append b str len
  | .read len => some (b.read len)
  | .move => Checked.move b
  | .readall => some b.readall

/-- Calls one after the other. -/
def performAll (b : FixedBuffer N) : List Op → Option (FixedBuffer N)
  | [] => some b
  | op :: ops =>
    match b.perform op with
    | none => none
    | some b' => b'.performAll ops

/-- `append` is passed as many bytes as it is told, and `read` stays within `readable()`. -/
def Allows (b : FixedBuffer N) : Op → Prop
  | .append str len => len ≤ str.length
  | .read len => 0 ≤ len ∧ len ≤ b.readable
  | .move | .readall => True

instance (b : FixedBuffer N) : (op : Op) → Decidable (b.Allows op)
  | .append _ _ => inferInstanceAs (Decidable (_ ≤ _))
  | .read _ => inferInstanceAs (Decidable (_ ∧ _))
  | .move | .readall => isTrue trivial

/-- Every call is allowed when it is made. -/
def AllowsAll (b : FixedBuffer N) : List Op → Prop
  | [] => True
  | op :: ops => b.Allows op ∧ ∀ b', b.perform op = some b' → b'.AllowsAll ops

/-- What the call does to a queue. -/
def Op.onQueue {cap : ℕ} (q : BoundedQueue UInt8 cap) : Op → BoundedQueue UInt8 cap
  | .append str len => q.append (str.take len.toNat)
  | .read len => q.drop len.toNat
  | .move => q.compact
  | .readall => .empty

/-- The buffer is well formed and holds what the queue holds. -/
structure Refines (b : FixedBuffer N) (q : BoundedQueue UInt8 (N - 1)) : Prop where
  wf : b.WF
  content_eq : b.content = q.content
  writable_eq : b.writable = q.room

/-! ## The assertions hold -/

variable {b : FixedBuffer N} {q : BoundedQueue UInt8 (N - 1)} {op : Op}

theorem Checked.append_eq (hb : b.WF) (str : List UInt8) (len : ℤ) :
    Checked.append b str len = some (b.append str len).1 := by
  have hw := hb.writer_lt
  have hwritable : Checked.writable b = some b.writable := if_pos (by omega)
  have hwrite : ∀ n ≤ b.writable, Checked.write (b.memcpy b.writer str n) n =
      some ((b.memcpy b.writer str n).write n) := by
    intro n hn
    apply if_pos
    show b.writer + n < N
    simp only [FixedBuffer.writable] at hn
    omega
  simp only [Checked.append, FixedBuffer.append, hwritable]
  split
  · rfl
  · split
    · exact hwrite len (by omega)
    · split
      · exact hwrite b.writable le_rfl
      · rfl

theorem Checked.move_eq (hb : b.WF) : Checked.move b = some b.move := by
  have hle := hb.reader_le
  have hreadable : Checked.readable b = some b.readable := if_pos (by omega)
  simp only [Checked.move, hreadable]
  rfl

/-! ## The simulation -/

theorem Refines.append (h : Refines b q) {str : List UInt8} {len : ℤ} (hlen : len ≤ str.length) :
    Refines (b.append str len).1 (q.append (str.take len.toNat)) := by
  have hroom := h.writable_eq
  refine ⟨h.wf.append str len, ?_, ?_⟩
  · rw [content_append h.wf str hlen, h.content_eq]
    show _ = q.content ++ (str.take len.toNat).take q.room
    rw [List.take_take, taken, hroom, Int.toNat_natCast, Nat.min_comm]
  · rw [writable_append]
    show _ = ((q.room - (str.take len.toNat).length : ℕ) : ℤ)
    rw [List.length_take, taken]
    omega

theorem Refines.read (h : Refines b q) {len : ℤ} (h0 : 0 ≤ len) (hlen : len ≤ b.readable) :
    Refines (b.read len) (q.drop len.toNat) := by
  obtain ⟨n, rfl⟩ := Int.eq_ofNat_of_zero_le h0
  refine ⟨h.wf.read h0 hlen, ?_, h.writable_eq⟩
  rw [content_read b hlen, h.content_eq]
  rfl

theorem Refines.move (h : Refines b q) : Refines b.move q.compact := by
  have hlen := h.wf.content_length
  have hw := h.wf.writer_lt
  have hr := h.wf.reader_nonneg
  refine ⟨h.wf.move, (content_move h.wf).trans h.content_eq, ?_⟩
  show (N - 1 : ℤ) - b.readable = ((N - 1 - q.content.length : ℕ) : ℤ)
  rw [h.content_eq] at hlen
  simp only [readable] at hlen ⊢
  omega

theorem refines_fresh (hN : 1 ≤ N) : Refines (fresh N) .empty := by
  refine ⟨wf_fresh hN, content_fresh, ?_⟩
  rw [writable_fresh]
  show (N - 1 : ℤ) = ((N - 1 : ℕ) : ℤ)
  omega

/-- An allowed call fails no assertion, and does to the buffer what it does to the queue. -/
theorem Refines.perform (h : Refines b q) (hop : b.Allows op) :
    ∃ b', b.perform op = some b' ∧ Refines b' (op.onQueue q) := by
  cases op with
  | append str len => exact ⟨_, Checked.append_eq h.wf str len, h.append hop⟩
  | read len => exact ⟨_, rfl, h.read hop.1 hop.2⟩
  | move => exact ⟨_, Checked.move_eq h.wf, h.move⟩
  | readall =>
    have hN : 1 ≤ N := by
      have := h.wf.writer_lt
      have := h.wf.reader_nonneg.trans h.wf.reader_le
      omega
    exact ⟨_, rfl, refines_fresh hN⟩

theorem Refines.performAll {ops : List Op} (h : Refines b q) (hops : b.AllowsAll ops) :
    ∃ b', b.performAll ops = some b' ∧ Refines b' (ops.foldl Op.onQueue q) := by
  induction ops generalizing b q with
  | nil => exact ⟨b, rfl, h⟩
  | cons op ops ih =>
    obtain ⟨b₁, hperform, hrefines⟩ := h.perform hops.1
    obtain ⟨b', hall, hend⟩ := ih hrefines (hops.2 b₁ hperform)
    refine ⟨b', ?_, hend⟩
    simp only [FixedBuffer.performAll, hperform]
    exact hall

/-- For every size of the buffer and every sequence of calls from the constructor on, with each
    `read` within `readable()`: no assertion fails, the indices are in order and within the array,
    the byte at `writer_` is zero, and the readable bytes and the room behind them are those of a
    queue with `BUFFER_SIZE - 1` places under the same calls. -/
theorem refines_queue (N : ℕ) (hN : 1 ≤ N) (ops : List Op) (hops : (fresh N).AllowsAll ops) :
    ∃ b : FixedBuffer N, (fresh N).performAll ops = some b ∧
      0 ≤ b.reader ∧ b.reader ≤ b.writer ∧ b.writer ≤ N - 1 ∧ b.cell b.writer = 0 ∧
      b.content = (ops.foldl Op.onQueue (.empty : BoundedQueue UInt8 (N - 1))).content ∧
      b.writable = (ops.foldl Op.onQueue (.empty : BoundedQueue UInt8 (N - 1))).room := by
  obtain ⟨b, hall, hend⟩ := (refines_fresh hN).performAll hops
  have hw := hend.wf.writer_lt
  exact ⟨b, hall, hend.wf.reader_nonneg, hend.wf.reader_le, by omega, hend.wf.terminated,
    hend.content_eq, hend.writable_eq⟩

/-- Eight bytes are offered to a buffer of eight, which takes seven, and four of them are read. -/
theorem refines_queue_full :
    ∃ b : FixedBuffer 8,
      (fresh 8).performAll [.append [49, 50, 51, 52, 53, 54, 55, 56] 8, .read 4, .move] = some b ∧
      0 ≤ b.reader ∧ b.reader ≤ b.writer ∧ b.writer ≤ 8 - 1 ∧ b.cell b.writer = 0 ∧
      b.content = [53, 54, 55] ∧ b.writable = 4 := by
  refine refines_queue 8 (by decide)
    [.append [49, 50, 51, 52, 53, 54, 55, 56] 8, .read 4, .move] ⟨by decide, ?_⟩
  intro b hb
  obtain rfl := Option.some.inj hb
  exact ⟨by decide, fun _ _ => ⟨trivial, fun _ _ => trivial⟩⟩

end FixedBuffer

end Codechiev
