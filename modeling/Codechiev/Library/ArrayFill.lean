import Mathlib.Data.List.Perm.Basic
import Mathlib.Data.List.Range
import Mathlib.Tactic.Common

/-!
# Filling an array one entry at a time

An array of a fixed size without initial values, and a list of assignments to its entries. If each
index is assigned exactly once, the outcome is known entry by entry (`fill_eq`).
-/

namespace ArrayFill

variable {α : Type*}

/-- One assignment. It has no outcome if the index is out of range. -/
def assign (xs : List (Option α)) (w : ℕ × α) : Option (List (Option α)) :=
  if w.1 < xs.length then some (xs.set w.1 (some w.2)) else none

/-- The assignments to an array of size `n`, in order. -/
def fill (n : ℕ) (ws : List (ℕ × α)) : Option (List (Option α)) :=
  ws.foldlM assign (List.replicate n none)

variable {n : ℕ} {ws : List (ℕ × α)} {xs : List (Option α)} {ys : List α}

/-- Assignments in range, none to an entry that another one assigned. -/
theorem foldlM_assign (hrange : ∀ w ∈ ws, w.1 < xs.length) (hnodup : (ws.map Prod.fst).Nodup) :
    ∃ zs, ws.foldlM assign xs = some zs ∧ zs.length = xs.length ∧
      (∀ w ∈ ws, zs[w.1]? = some (some w.2)) ∧
      ∀ i, i ∉ ws.map Prod.fst → zs[i]? = xs[i]? := by
  induction ws generalizing xs with
  | nil => exact ⟨xs, rfl, rfl, fun w hw => absurd hw List.not_mem_nil, fun _ _ => rfl⟩
  | cons w ws ih =>
    obtain ⟨hw, hws⟩ := List.forall_mem_cons.mp hrange
    obtain ⟨hfresh, hrest⟩ := List.nodup_cons.mp hnodup
    have hlength : (xs.set w.1 (some w.2)).length = xs.length := List.length_set
    obtain ⟨zs, hfold, hzs, hwritten, hkept⟩ := ih (fun v hv => hlength ▸ hws v hv) hrest
    refine ⟨zs, ?_, hzs.trans hlength, ?_, ?_⟩
    · rw [List.foldlM_cons, assign, if_pos hw]
      exact hfold
    · refine List.forall_mem_cons.mpr ⟨?_, hwritten⟩
      rw [hkept _ hfresh, List.getElem?_set_self hw]
    · intro i hi
      rw [List.map_cons, List.mem_cons, not_or] at hi
      rw [hkept i hi.2, List.getElem?_set_ne (Ne.symm hi.1)]

/-- Every index is assigned once, and the assignments agree with `ys`. -/
theorem fill_eq (hn : ys.length = n) (honce : (ws.map Prod.fst).Perm (List.range n))
    (hws : ∀ w ∈ ws, ys[w.1]? = some w.2) : fill n ws = some (ys.map some) := by
  have hlength : (List.replicate n (none : Option α)).length = n := List.length_replicate
  have hrange : ∀ w ∈ ws, w.1 < (List.replicate n (none : Option α)).length := by
    intro w hw
    rw [hlength]
    exact List.mem_range.mp (honce.mem_iff.mp (List.mem_map_of_mem hw))
  obtain ⟨zs, hfold, hzs, hwritten, -⟩ :=
    foldlM_assign hrange (honce.nodup_iff.mpr List.nodup_range)
  rw [fill, hfold, Option.some.injEq]
  ext i : 1
  by_cases hi : i < n
  · obtain ⟨w, hw, rfl⟩ := List.mem_map.mp (honce.mem_iff.mpr (List.mem_range.mpr hi))
    rw [hwritten w hw, List.getElem?_map, hws w hw]
    rfl
  · rw [List.getElem?_eq_none (by omega), List.getElem?_eq_none (by simp; omega)]

section Indices

variable {β γ : Type*}

theorem map_mapIdx (f : ℕ → α → β) (g : β → γ) (xs : List α) :
    (xs.mapIdx f).map g = xs.mapIdx fun i x => g (f i x) := by
  apply Eq.symm
  rw [List.mapIdx_eq_iff]
  intro i
  rw [List.getElem?_map, List.getElem?_mapIdx, Option.map_map]
  rfl

/-- The indices of a list. -/
theorem mapIdx_index (xs : List α) : (xs.mapIdx fun i _ => i) = List.range xs.length := by
  rw [List.mapIdx_eq_iff]
  intro i
  by_cases hi : i < xs.length
  · rw [List.getElem?_range hi, List.getElem?_eq_getElem hi]
    rfl
  · rw [List.getElem?_eq_none (by simp; omega), List.getElem?_eq_none (by omega)]
    rfl

end Indices

end ArrayFill
