import Mathlib.Data.List.TakeWhile
import Mathlib.Algebra.Order.Ring.Int
import Mathlib.Data.List.GetD
import Mathlib.Tactic.Common

/-!
# `base::FixedBuffer`

The fixed-size byte buffer behind every channel: `buffer_` holds `BUFFER_SIZE` bytes, the
readable bytes are those between `reader_` and `writer_`, and a zero byte stands at `writer_`.

Both indices are `int`s in the source and integers here, since `read` takes any `int` and moves
`reader_` by it, below zero too. `WF` states what the operations keep when they are used within
their bounds; nothing in the definitions enforces it.
-/

namespace Codechiev

/-- `FixedBuffer<BUFFER_SIZE>`. -/
structure FixedBuffer (N : ℕ) where
  writer : ℤ
  reader : ℤ
  buffer : Fin N → UInt8

/-- `strlen` of the string whose bytes, without the closing zero, are `s`. -/
def strlen (s : List UInt8) : ℕ := (s.takeWhile (· ≠ 0)).length

/-- `static_cast<int>` of a `size_t`: the low 32 bits, read as a signed number. -/
def castInt (n : ℕ) : ℤ :=
  if n % 4294967296 < 2147483648 then (n % 4294967296 : ℕ)
  else (n % 4294967296 : ℕ) - 4294967296

theorem castInt_of_lt {n : ℕ} (h : n < 2147483648) : castInt n = n := by
  rw [castInt, Nat.mod_eq_of_lt (by omega), if_pos h]

theorem castInt_le (n : ℕ) : castInt n ≤ n := by
  have := Nat.mod_le n 4294967296
  simp only [castInt]
  split <;> omega

theorem strlen_le (s : List UInt8) : strlen s ≤ s.length := by
  exact (List.takeWhile_prefix _).length_le

theorem ne_zero_of_no_nul {s : List UInt8} (h : 0 ∉ s) : ∀ x ∈ s, decide (x ≠ 0) = true := by
  intro x hx
  rw [decide_eq_true_eq]
  rintro rfl
  exact h hx

theorem strlen_of_no_nul {s : List UInt8} (h : 0 ∉ s) : strlen s = s.length := by
  rw [strlen, List.takeWhile_eq_self_iff.mpr (ne_zero_of_no_nul h)]

/-- A string without zero bytes is found in front of the one that closes it. -/
theorem takeWhile_terminated {s : List UInt8} (h : 0 ∉ s) :
    (s ++ [0]).takeWhile (· ≠ 0) = s := by
  rw [List.takeWhile_append_of_pos (ne_zero_of_no_nul h)]
  simp

theorem strlen_lt_of_nul {s : List UInt8} (h : 0 ∈ s) : strlen s < s.length := by
  refine lt_of_le_of_ne (strlen_le s) fun heq => ?_
  have hself : s.takeWhile (· ≠ 0) = s := (List.takeWhile_prefix _).eq_of_length heq
  have := List.takeWhile_eq_self_iff.mp hself 0 h
  simp at this

namespace FixedBuffer

variable {N : ℕ}

/-- The byte at index `i` of `buffer_`. An index outside the array, which `str()` reaches only
    after `reader_` went below zero, is given as a zero byte. -/
def cell (b : FixedBuffer N) (i : ℤ) : UInt8 :=
  if h : 0 ≤ i ∧ i < N then b.buffer ⟨i.toNat, by omega⟩ else 0

/-- The `n` bytes from index `i` on. -/
def region (b : FixedBuffer N) (i : ℤ) (n : ℕ) : List UInt8 :=
  (List.range n).map fun k : ℕ => b.cell (i + (k : ℤ))

/-- The constructor: both indices zero and `buffer_` cleared. -/
def fresh (N : ℕ) : FixedBuffer N := ⟨0, 0, fun _ => 0⟩

def readable (b : FixedBuffer N) : ℤ := b.writer - b.reader

def writable (b : FixedBuffer N) : ℤ := (N - 1 : ℤ) - b.writer

/-- `::memcpy(buffer_+dst, src, len)`. -/
def memcpy (b : FixedBuffer N) (dst : ℤ) (src : List UInt8) (len : ℤ) : FixedBuffer N :=
  { b with
    buffer := fun j =>
      if dst ≤ (j : ℤ) ∧ (j : ℤ) < dst + len then src.getD ((j : ℤ) - dst).toNat 0
      else b.buffer j }

/-- `buffer_[i]=0`. -/
def clearCell (b : FixedBuffer N) (i : ℤ) : FixedBuffer N :=
  { b with buffer := fun j => if (j : ℤ) = i then 0 else b.buffer j }

/-- `write(int len)`. -/
def write (b : FixedBuffer N) (len : ℤ) : FixedBuffer N :=
  { b with writer := b.writer + len }.clearCell (b.writer + len)

/-- `append(const char *str, int len)` and the value it returns. A full buffer takes neither
    branch, and the function then ends without a `return`: no value. -/
def append (b : FixedBuffer N) (str : List UInt8) (len : ℤ) : FixedBuffer N × Option ℤ :=
  if len ≤ 0 then (b, some 0)
  else
    let wb := b.writable
    if wb > len then ((b.memcpy b.writer str len).write len, some len)
    -- what fits: with `wb` equal to `len` that is all of it, too
    else if wb > 0 then ((b.memcpy b.writer str wb).write wb, some wb)
    else (b, none)

/-- `append(const char *str)`, which measures the string with `strlen`. -/
def appendStr (b : FixedBuffer N) (str : List UInt8) : FixedBuffer N × Option ℤ :=
  b.append str (castInt (strlen str))

/-- `read(int len)`. -/
def read (b : FixedBuffer N) (len : ℤ) : FixedBuffer N := { b with reader := b.reader + len }

def readall (_ : FixedBuffer N) : FixedBuffer N := ⟨0, 0, fun _ => 0⟩

/-- `move()`. The copy is the `memcpy` of the source, taken to copy the bytes as they stood
    before it, also where its two ranges overlap. -/
def move (b : FixedBuffer N) : FixedBuffer N :=
  let rb := b.readable
  { b.memcpy 0 (b.region b.reader rb.toNat) rb with reader := 0, writer := rb }.clearCell rb

/-- What `str()` points to, as far as `readable()` reaches. -/
def content (b : FixedBuffer N) : List UInt8 := b.region b.reader b.readable.toNat

/-- The indices are in order and within the array, and the byte at `writer_` is zero. -/
structure WF (b : FixedBuffer N) : Prop where
  reader_nonneg : 0 ≤ b.reader
  reader_le : b.reader ≤ b.writer
  writer_lt : b.writer < N
  terminated : b.cell b.writer = 0

/-! ## Regions -/

@[simp] theorem region_length (b : FixedBuffer N) (i : ℤ) (n : ℕ) : (b.region i n).length = n := by
  simp [region]

@[simp] theorem region_zero (b : FixedBuffer N) (i : ℤ) : b.region i 0 = [] := rfl

theorem region_add (b : FixedBuffer N) (i : ℤ) (m n : ℕ) :
    b.region i (m + n) = b.region i m ++ b.region (i + m) n := by
  simp only [region, List.range_add, List.map_append, List.map_map]
  congr 1
  apply List.map_congr_left
  intro k _
  simp only [Function.comp_apply, Nat.cast_add]
  congr 1
  omega

theorem region_congr {b b' : FixedBuffer N} {i : ℤ} {n : ℕ}
    (h : ∀ j, i ≤ j → j < i + n → b'.cell j = b.cell j) : b'.region i n = b.region i n := by
  apply List.map_congr_left
  intro k hk
  have hk := List.mem_range.mp hk
  exact h _ (by omega) (by omega)

theorem region_drop (b : FixedBuffer N) (i : ℤ) {m n : ℕ} (h : m ≤ n) :
    (b.region i n).drop m = b.region (i + m) (n - m) := by
  obtain ⟨k, rfl⟩ := Nat.exists_eq_add_of_le h
  rw [region_add, List.drop_left' (b.region_length i m), Nat.add_sub_cancel_left]

theorem region_take (b : FixedBuffer N) (i : ℤ) {m n : ℕ} (h : m ≤ n) :
    (b.region i n).take m = b.region i m := by
  obtain ⟨k, rfl⟩ := Nat.exists_eq_add_of_le h
  rw [region_add, List.take_left' (b.region_length i m)]

theorem content_length (b : FixedBuffer N) : b.content.length = b.readable.toNat := by
  simp [content]

theorem content_eq_nil {b : FixedBuffer N} (h : b.readable ≤ 0) : b.content = [] := by
  rw [content, Int.toNat_of_nonpos h, region_zero]

theorem WF.writable_nonneg {b : FixedBuffer N} (hb : b.WF) : 0 ≤ b.writable := by
  have hw := hb.writer_lt
  simp only [writable]
  omega

theorem WF.content_length {b : FixedBuffer N} (hb : b.WF) :
    (b.content.length : ℤ) = b.readable := by
  have := hb.reader_le
  rw [FixedBuffer.content_length]
  simp only [readable]
  omega

/-- With the readable bytes at the start of the array, they and the room make up the buffer. -/
theorem WF.writable_of_reader {b : FixedBuffer N} (hb : b.WF) (hreader : b.reader = 0) :
    b.writable = (N - 1 : ℤ) - b.content.length := by
  rw [hb.content_length]
  simp only [writable, readable]
  omega

/-! ## Cells after a write -/

theorem cell_memcpy (b : FixedBuffer N) {dst len : ℤ} (src : List UInt8) (hdst : 0 ≤ dst)
    (hend : dst + len ≤ N) (i : ℤ) :
    (b.memcpy dst src len).cell i =
      if dst ≤ i ∧ i < dst + len then src.getD (i - dst).toNat 0 else b.cell i := by
  simp only [cell, memcpy]
  by_cases hi : 0 ≤ i ∧ i < N
  · have hcast : ((⟨i.toNat, by omega⟩ : Fin N) : ℕ) = i.toNat := rfl
    simp only [dif_pos hi, Int.toNat_of_nonneg hi.1]
  · have hout : ¬ (dst ≤ i ∧ i < dst + len) := by omega
    simp only [dif_neg hi, if_neg hout]

theorem cell_clearCell (b : FixedBuffer N) (i j : ℤ) :
    (b.clearCell i).cell j = if j = i then 0 else b.cell j := by
  simp only [cell, clearCell]
  by_cases hj : 0 ≤ j ∧ j < N
  · simp only [dif_pos hj, Int.toNat_of_nonneg hj.1]
  · simp [dif_neg hj]

@[simp] theorem clearCell_writer (b : FixedBuffer N) (i : ℤ) : (b.clearCell i).writer = b.writer :=
  rfl

@[simp] theorem clearCell_reader (b : FixedBuffer N) (i : ℤ) : (b.clearCell i).reader = b.reader :=
  rfl

theorem cell_write (b : FixedBuffer N) (len i : ℤ) :
    (b.write len).cell i = if i = b.writer + len then 0 else b.cell i :=
  cell_clearCell _ _ _

/-! ## `append` -/

/-- How many bytes `append` takes: all that are offered, or what fits. -/
def taken (b : FixedBuffer N) (len : ℤ) : ℕ := min len.toNat b.writable.toNat

/-- The branch of `append` that stores `n` bytes. -/
def store (b : FixedBuffer N) (str : List UInt8) (n : ℤ) : FixedBuffer N :=
  (b.memcpy b.writer str n).write n

/-- `append` either leaves the buffer alone or stores `taken` bytes. -/
theorem append_fst (b : FixedBuffer N) (str : List UInt8) (len : ℤ) :
    (b.append str len).1 = if b.taken len = 0 then b else b.store str (b.taken len) := by
  unfold append taken store
  split
  · rw [if_pos (by omega)]
  · dsimp only
    split
    · rw [if_neg (by omega), show ((min len.toNat b.writable.toNat : ℕ) : ℤ) = len by omega]
    · split
      · rw [if_neg (by omega),
          show ((min len.toNat b.writable.toNat : ℕ) : ℤ) = b.writable by omega]
      · rw [if_pos (by omega)]

theorem region_store (b : FixedBuffer N) (str : List UInt8) {n : ℕ} (hw : 0 ≤ b.writer)
    (hn : (n : ℤ) ≤ b.writable) (hlen : n ≤ str.length) :
    (b.store str n).region b.writer n = str.take n := by
  have hend : b.writer + n ≤ N := by simp only [writable] at hn; omega
  apply List.ext_getElem
  · simp [hlen]
  · intro k hk _
    rw [region_length] at hk
    simp only [region, store, List.getElem_map, List.getElem_range, List.getElem_take]
    have hcell : b.writer ≤ b.writer + k ∧ b.writer + (k : ℤ) < b.writer + n := by omega
    rw [cell_write, if_neg (by change b.writer + (k : ℤ) ≠ b.writer + n; omega),
      cell_memcpy _ _ hw hend, if_pos hcell]
    have hidx : (b.writer + (k : ℤ) - b.writer).toNat = k := by omega
    rw [hidx, List.getD_eq_getElem _ _ (by omega)]

/-- Storing leaves the bytes in front of the writer alone. -/
theorem region_store_before (b : FixedBuffer N) (str : List UInt8) {n m : ℕ} {i : ℤ}
    (hw : 0 ≤ b.writer) (hn : (n : ℤ) ≤ b.writable) (hi : i + m ≤ b.writer) :
    (b.store str n).region i m = b.region i m := by
  have hend : b.writer + n ≤ N := by simp only [writable] at hn; omega
  apply region_congr
  intro j _ hj
  rw [store, cell_write, if_neg (by change j ≠ b.writer + n; omega), cell_memcpy _ _ hw hend,
    if_neg (by omega)]

@[simp] theorem store_writer (b : FixedBuffer N) (str : List UInt8) (n : ℤ) :
    (b.store str n).writer = b.writer + n := rfl

@[simp] theorem store_reader (b : FixedBuffer N) (str : List UInt8) (n : ℤ) :
    (b.store str n).reader = b.reader := rfl

theorem content_store (b : FixedBuffer N) (str : List UInt8) {n : ℕ} (hr : b.reader ≤ b.writer)
    (hw : 0 ≤ b.writer) (hn : (n : ℤ) ≤ b.writable) (hlen : n ≤ str.length) :
    (b.store str n).content = b.content ++ str.take n := by
  have hsplit : (b.store str n).readable.toNat = b.readable.toNat + n := by
    simp only [readable, store_writer, store_reader]; omega
  have hpos : b.reader + (b.readable.toNat : ℤ) = b.writer := by simp only [readable]; omega
  rw [content, hsplit, store_reader, region_add, hpos, region_store b str hw hn hlen,
    region_store_before b str hw hn (by omega), content]

theorem append_writer {b : FixedBuffer N} {str : List UInt8} {len : ℤ} :
    (b.append str len).1.writer = b.writer + b.taken len := by
  rw [append_fst]; split <;> simp [*]

theorem append_reader {b : FixedBuffer N} {str : List UInt8} {len : ℤ} :
    (b.append str len).1.reader = b.reader := by
  rw [append_fst]; split <;> rfl

/-- `append` adds the bytes that fit, and nothing else changes. -/
theorem content_append {b : FixedBuffer N} (hb : b.WF) (str : List UInt8) {len : ℤ}
    (hlen : len ≤ str.length) :
    (b.append str len).1.content = b.content ++ str.take (b.taken len) := by
  have hw := hb.writer_lt
  rw [append_fst]
  split
  · rename_i h0
    simp [h0]
  · exact content_store b str hb.reader_le (hb.reader_nonneg.trans hb.reader_le)
      (by simp only [taken, writable] at *; omega) (by simp only [taken]; omega)

theorem WF.append {b : FixedBuffer N} (hb : b.WF) (str : List UInt8) (len : ℤ) :
    (b.append str len).1.WF := by
  have hw := hb.writer_lt
  have ht : (b.taken len : ℤ) ≤ b.writable := by simp only [taken, writable]; omega
  rw [append_fst]
  split
  · exact hb
  · refine ⟨hb.reader_nonneg, ?_, ?_, ?_⟩
    · have := hb.reader_le
      simp only [store_reader, store_writer]; omega
    · simp only [writable] at ht
      simp only [store_writer]; omega
    · rw [store, cell_write]
      exact if_pos rfl

/-- All that is offered is taken when there is room for it. -/
theorem content_append_of_fits {b : FixedBuffer N} (hb : b.WF) (str : List UInt8) {len : ℕ}
    (hlen : len ≤ str.length) (hfits : (len : ℤ) ≤ b.writable) :
    (b.append str len).1.content = b.content ++ str.take len := by
  rw [content_append hb str (by omega)]
  congr 2
  simp only [taken]; omega

theorem writable_append {b : FixedBuffer N} {str : List UInt8} {len : ℤ} :
    (b.append str len).1.writable = b.writable - b.taken len := by
  simp only [writable]; rw [append_writer]; omega

/-! ## `read`, `readall`, `move` -/

theorem readable_read (b : FixedBuffer N) (len : ℤ) :
    (b.read len).readable = b.readable - len := by
  simp only [read, readable]; omega

theorem content_read (b : FixedBuffer N) {n : ℕ} (hn : (n : ℤ) ≤ b.readable) :
    (b.read n).content = b.content.drop n := by
  have hle : n ≤ b.readable.toNat := by omega
  rw [content, content, region_drop b _ hle, readable_read]
  have hlen : (b.readable - n).toNat = b.readable.toNat - n := by omega
  rw [hlen]
  rfl

theorem WF.read {b : FixedBuffer N} (hb : b.WF) {n : ℤ} (h0 : 0 ≤ n) (hn : n ≤ b.readable) :
    (b.read n).WF := by
  have := hb.reader_nonneg
  simp only [readable] at hn
  exact ⟨by simp only [FixedBuffer.read]; omega, by simp only [FixedBuffer.read]; omega,
    hb.writer_lt, hb.terminated⟩

theorem wf_fresh (hN : 0 < N) : (fresh N).WF :=
  ⟨le_rfl, le_rfl, by simpa [fresh] using hN, by unfold cell fresh; split <;> rfl⟩

@[simp] theorem content_fresh : (fresh N).content = [] := content_eq_nil (by simp [fresh, readable])

theorem writable_fresh : (fresh N).writable = N - 1 := by simp [fresh, writable]

/-- `move` keeps the readable bytes. -/
theorem content_move {b : FixedBuffer N} (hb : b.WF) : b.move.content = b.content := by
  have hr := hb.reader_nonneg
  have hle := hb.reader_le
  have hw := hb.writer_lt
  have hrb : b.move.readable = b.readable := by simp [move, readable]
  rw [content, hrb]
  apply List.ext_getElem
  · simp [content_length]
  · intro k hk _
    rw [region_length] at hk
    have hk' : (k : ℤ) < b.readable := by omega
    have hnn : 0 ≤ b.readable := by simp only [readable]; omega
    simp only [content, region, List.getElem_map, List.getElem_range]
    have hreader : b.move.reader = 0 := rfl
    -- the closing zero stands behind the copied bytes
    rw [hreader, move, cell_clearCell, if_neg (by omega)]
    change (b.memcpy 0 (b.region b.reader b.readable.toNat) b.readable).cell (0 + k) = _
    rw [cell_memcpy _ _ le_rfl (by simp only [readable]; omega), if_pos (by omega)]
    have hidx : (0 + (k : ℤ) - 0).toNat = k := by omega
    rw [hidx, List.getD_eq_getElem _ _ (by simpa using hk)]
    simp [region]

theorem WF.move {b : FixedBuffer N} (hb : b.WF) : b.move.WF := by
  have hr := hb.reader_nonneg
  have hle := hb.reader_le
  have hw := hb.writer_lt
  refine ⟨le_rfl, ?_, ?_, ?_⟩
  · change 0 ≤ b.readable
    simp only [readable]; omega
  · change b.readable < N
    simp only [readable]; omega
  · change b.move.cell b.readable = 0
    rw [FixedBuffer.move, cell_clearCell, if_pos rfl]

end FixedBuffer

end Codechiev
