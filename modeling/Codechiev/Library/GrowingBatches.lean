import Codechiev.Library.Transition
import Mathlib.Algebra.Order.Ring.Nat
import Mathlib.Data.List.Basic
import Mathlib.Tactic.Ring

/-!
# A queue that is served in batches that grow

Items wait in a queue, and are served from its front, at most `size` at a time. Each time a batch is
full, `size` doubles. Items may come and go in between.

An item that goes on waiting moves forward by as much as `size` grows, so the sum of the two never
grows (`Run.spared`). With a bound on the number of items, `size` is bounded as well, and so is the
number of batches that leave anything behind (`Grown`).
-/

/-- The items that wait, how many of them a batch may take, and how many batches there were after
    which something was left. -/
structure BatchQueue (α : Type*) where
  waiting : List α
  size : ℕ
  short : ℕ

/-- An item comes or goes, or a batch is served. -/
inductive BatchStep (α : Type*) where
  | join (x : α)
  | leave (x : α)
  | serve (batch : List α)

namespace BatchStep

variable {α : Type*}

/-- The item is not served, and does not go. -/
def Spares (x : α) : BatchStep α → Prop
  | join _ => True
  | leave y => y ≠ x
  | serve batch => x ∉ batch

def isServe : BatchStep α → Bool
  | serve _ => true
  | join _ | leave _ => false

end BatchStep

theorem List.idxOf_erase_le {α : Type*} [DecidableEq α] {x y : α} {xs : List α} (h : y ≠ x) :
    (xs.erase y).idxOf x ≤ xs.idxOf x := by
  induction xs with
  | nil => exact Nat.le_refl _
  | cons a xs ih =>
    rw [List.erase_cons]
    split
    · rename_i hay
      rw [List.idxOf_cons_ne xs (beq_iff_eq.mp hay ▸ h)]
      exact Nat.le_succ _
    · by_cases hax : a = x
      · rw [List.idxOf_cons_eq _ hax]
        exact Nat.zero_le _
      · rw [List.idxOf_cons_ne _ hax, List.idxOf_cons_ne _ hax]
        exact Nat.succ_le_succ ih

namespace BatchQueue

variable {α : Type*}

def batch (q : BatchQueue α) : List α := q.waiting.take q.size

/-- What the next batch leaves. -/
def rest (q : BatchQueue α) : List α := q.waiting.drop q.size

def serve (q : BatchQueue α) : BatchQueue α where
  waiting := q.rest
  size := if q.batch.length = q.size then 2 * q.size else q.size
  short := if q.rest.isEmpty then q.short else q.short + 1

inductive Step [DecidableEq α] : BatchQueue α → BatchStep α → BatchQueue α → Prop where
  | join {q : BatchQueue α} {x : α} (hx : x ∉ q.waiting) :
      Step q (.join x) { q with waiting := q.waiting ++ [x] }
  | leave {q : BatchQueue α} {x : α} :
      Step q (.leave x) { q with waiting := q.waiting.erase x }
  | serve {q : BatchQueue α} : Step q (.serve q.batch) q.serve

/-- The runs from an empty queue on. -/
def batchRuns (α : Type*) [DecidableEq α] (size : ℕ) :
    LabelledSystem (BatchQueue α) (BatchStep α) where
  init q := q = ⟨[], size, 0⟩
  step := Step

variable {q q' : BatchQueue α} {l : BatchStep α} {x : α} {n size : ℕ}

theorem batch_append_rest (q : BatchQueue α) : q.batch ++ q.rest = q.waiting :=
  List.take_append_drop _ _

/-- Something is left only by a full batch. -/
theorem batch_length_of_rest (hrest : q.rest ≠ []) :
    q.batch.length = q.size ∧ q.size < q.waiting.length := by
  have hpos := List.length_pos_iff.mpr hrest
  rw [rest, List.length_drop] at hpos
  rw [batch, List.length_take]
  omega

theorem serve_size_of_full (h : q.batch.length = q.size) : q.serve.size = 2 * q.size := if_pos h

theorem serve_size_of_not_full (h : q.batch.length ≠ q.size) : q.serve.size = q.size := if_neg h

theorem serve_short_of_nil (h : q.rest = []) : q.serve.short = q.short :=
  if_pos (List.isEmpty_iff.mpr h)

theorem serve_short_of_ne_nil (h : q.rest ≠ []) : q.serve.short = q.short + 1 :=
  if_neg (mt List.isEmpty_iff.mp h)

/-! ## An item that waits -/

variable [DecidableEq α]

/-- An item that goes on waiting does not fall back, and moves by what `size` grows. -/
theorem Step.spared (h : Step q l q') (hl : l.Spares x) (hx : x ∈ q.waiting) :
    x ∈ q'.waiting ∧ q'.waiting.idxOf x + q'.size ≤ q.waiting.idxOf x + q.size ∧
      q'.size = if l.isServe then 2 * q.size else q.size := by
  cases h with
  | @join y hy =>
    refine ⟨List.mem_append_left _ hx, ?_, rfl⟩
    show (q.waiting ++ [y]).idxOf x + q.size ≤ _
    rw [List.idxOf_append_of_mem hx]
  | leave =>
    exact ⟨(List.mem_erase_of_ne (Ne.symm hl)).mpr hx,
      Nat.add_le_add_right (List.idxOf_erase_le hl) _, rfl⟩
  | serve =>
    have hx' := hx
    rw [← q.batch_append_rest] at hx'
    have hrest : x ∈ q.rest := (List.mem_append.mp hx').resolve_left hl
    have hfull := (batch_length_of_rest (List.ne_nil_of_mem hrest)).1
    have hidx : q.waiting.idxOf x = q.batch.length + q.rest.idxOf x := by
      conv_lhs => rw [← q.batch_append_rest]
      exact List.idxOf_append_of_notMem hl
    have hsize := serve_size_of_full hfull
    refine ⟨hrest, ?_, hsize⟩
    show q.rest.idxOf x + q.serve.size ≤ _
    omega

/-- After `n` batches without an item that waits, `size` has doubled `n` times, and the item has
    moved forward by as much as that. -/
theorem Run.spared {ls : List (BatchStep α)} (h : (batchRuns α size).Run q ls q')
    (hls : ∀ l ∈ ls, l.Spares x) (hx : x ∈ q.waiting) :
    x ∈ q'.waiting ∧ q'.waiting.idxOf x + q'.size ≤ q.waiting.idxOf x + q.size ∧
      q'.size = 2 ^ ls.countP BatchStep.isServe * q.size := by
  induction h with
  | nil q => exact ⟨hx, le_rfl, (Nat.one_mul _).symm⟩
  | @cons q r s l ls hstep _ ih =>
    obtain ⟨hfirst, hrest⟩ := List.forall_mem_cons.mp hls
    obtain ⟨hmem, hidx, hsize⟩ := Step.spared hstep hfirst hx
    obtain ⟨hmem', hidx', hsize'⟩ := ih hrest hmem
    refine ⟨hmem', le_trans hidx' hidx, ?_⟩
    rw [hsize', hsize, List.countP_cons]
    split
    · rw [pow_succ]
      ring
    · rfl

/-! ## How far `size` grows -/

/-- `size` has doubled from `size₀` a number of times, at least once for each batch that left
    something, and no further than to twice the number `n` of items there can be. -/
structure Grown (n size₀ : ℕ) (q : BatchQueue α) : Prop where
  doubled : ∃ k, q.size = 2 ^ k * size₀ ∧ q.short ≤ k
  le : q.size ≤ max size₀ (2 * n)
  short : q.short = 0 ∨ 2 ^ (q.short - 1) * size₀ < n

omit [DecidableEq α] in
theorem grown_empty (n size : ℕ) : (⟨[], size, 0⟩ : BatchQueue α).Grown n size :=
  ⟨⟨0, (Nat.one_mul _).symm, le_rfl⟩, le_max_left _ _, .inl rfl⟩

omit [DecidableEq α] in
theorem Grown.serve {size₀ : ℕ} (h : q.Grown n size₀) (hn : q.waiting.length ≤ n) :
    q.serve.Grown n size₀ := by
  obtain ⟨k, hk, hshort⟩ := h.doubled
  have hbatch : q.batch.length ≤ q.waiting.length := List.length_take_le' _ _
  -- whether the batch is full decides what becomes of `size`
  have hle : q.serve.size ≤ max size₀ (2 * n) := by
    by_cases hfull : q.batch.length = q.size
    · rw [serve_size_of_full hfull]
      exact le_max_of_le_right (by omega)
    · rw [serve_size_of_not_full hfull]
      exact h.le
  have hdouble : 2 * q.size = 2 ^ (k + 1) * size₀ := by
    rw [hk, pow_succ]
    ring
  by_cases hrest : q.rest = []
  · have hsame := serve_short_of_nil hrest
    refine ⟨?_, hle, hsame.symm ▸ h.short⟩
    rw [hsame]
    by_cases hfull : q.batch.length = q.size
    · exact ⟨k + 1, (serve_size_of_full hfull).trans hdouble, Nat.le_succ_of_le hshort⟩
    · exact ⟨k, (serve_size_of_not_full hfull).trans hk, hshort⟩
  · obtain ⟨hfull, hlt⟩ := batch_length_of_rest hrest
    have hmore := serve_short_of_ne_nil hrest
    refine ⟨⟨k + 1, (serve_size_of_full hfull).trans hdouble, ?_⟩, hle, .inr ?_⟩
    · rw [hmore]
      exact Nat.succ_le_succ hshort
    · -- the batch that was too small is smaller than the number of items
      rw [hmore, Nat.add_sub_cancel]
      calc 2 ^ q.short * size₀
        _ ≤ 2 ^ k * size₀ := Nat.mul_le_mul_right _ (Nat.pow_le_pow_right Nat.two_pos hshort)
        _ = q.size := hk.symm
        _ < n := hlt.trans_le hn

theorem Grown.step {size₀ : ℕ} (h : q.Grown n size₀) (hn : q.waiting.length ≤ n)
    (hstep : Step q l q') : q'.Grown n size₀ := by
  cases hstep with
  | join hx => exact ⟨h.doubled, h.le, h.short⟩
  | leave => exact ⟨h.doubled, h.le, h.short⟩
  | serve => exact h.serve hn

end BatchQueue
