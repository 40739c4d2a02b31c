import Mathlib.Logic.Relation

/-!
# Labelled transition systems

A system is a set of initial states and a labelled step relation. `Reachable` collects the
states of all finite runs, and `under` keeps only the runs whose steps meet a condition on the
state before the step and on its label. The induction over a run is packaged once, in
`Reachable.invariant`.
-/

/-- A labelled transition system: where runs start, and what one step may do. -/
structure LabelledSystem (σ ℓ : Type*) where
  init : σ → Prop
  step : σ → ℓ → σ → Prop

namespace LabelledSystem

variable {σ ℓ : Type*} {M : LabelledSystem σ ℓ} {s s' : σ}

/-- The states of the finite runs that start in an initial state. -/
inductive Reachable (M : LabelledSystem σ ℓ) : σ → Prop where
  | start {s : σ} : M.init s → Reachable M s
  | next {s s' : σ} (l : ℓ) : Reachable M s → M.step s l s' → Reachable M s'

/-- The system restricted to the steps that meet `P`. -/
def under (M : LabelledSystem σ ℓ) (P : σ → ℓ → Prop) : LabelledSystem σ ℓ where
  init := M.init
  step s l s' := P s l ∧ M.step s l s'

/-- A state predicate that holds initially and is kept by every step from a reachable state
    holds in every reachable state. -/
theorem Reachable.invariant {I : σ → Prop} (hinit : ∀ s, M.init s → I s)
    (hstep : ∀ s l s', M.Reachable s → I s → M.step s l s' → I s')
    (h : M.Reachable s) : I s := by
  induction h with
  | start hs => exact hinit _ hs
  | next l hr hs ih => exact hstep _ l _ hr ih hs

/-- Runs of the restricted system are runs of the system. -/
theorem Reachable.of_under {P : σ → ℓ → Prop} (h : (M.under P).Reachable s) :
    M.Reachable s := by
  induction h with
  | start hs => exact .start hs
  | next l _ hs ih => exact .next l ih hs.2

/-- A finite run from one state to another, as the list of its labels. -/
inductive Run (M : LabelledSystem σ ℓ) : σ → List ℓ → σ → Prop where
  | nil (s : σ) : Run M s [] s
  | cons {s t u : σ} {l : ℓ} {ls : List ℓ} : M.step s l t → Run M t ls u → Run M s (l :: ls) u

/-- One run after another. -/
theorem Run.append {ls ls' : List ℓ} {s'' : σ} (h : M.Run s ls s') (h' : M.Run s' ls' s'') :
    M.Run s (ls ++ ls') s'' := by
  induction h with
  | nil s => exact h'
  | cons hst _ ih => exact .cons hst (ih h')

/-- A run from a reachable state stays among them. -/
theorem Reachable.run {ls : List ℓ} (h : M.Reachable s) (hrun : M.Run s ls s') :
    M.Reachable s' := by
  induction hrun with
  | nil => exact h
  | cons hst _ ih => exact ih (.next _ h hst)

/-- What every step keeps, a run keeps. -/
theorem Run.preserves {I : σ → Prop} {ls : List ℓ} (h : M.Run s ls s')
    (hstep : ∀ s l s', I s → M.step s l s' → I s') (hs : I s) : I s' := by
  induction h with
  | nil s => exact hs
  | cons hst _ ih => exact ih (hstep _ _ _ hs hst)

/-- A system that another one carries out, by `f` on the states and, on the labels, by `g`, which is
    `none` for a step that the first one does not see: runs are carried out by runs. The states of
    the run meet `I`. -/
theorem Run.simulate {σ' ℓ' : Type*} {M' : LabelledSystem σ' ℓ'} {f : σ → σ'} {g : ℓ → Option ℓ'}
    {I : σ → Prop} {ls : List ℓ} (h : M.Run s ls s') (hs : I s)
    (hkeep : ∀ s l s', I s → M.step s l s' → I s')
    (hhidden : ∀ s l s', I s → M.step s l s' → g l = none → f s' = f s)
    (hshown : ∀ s l s' l', I s → M.step s l s' → g l = some l' → M'.step (f s) l' (f s')) :
    M'.Run (f s) (ls.filterMap g) (f s') := by
  induction h with
  | nil s => exact .nil (f s)
  | @cons s t u l ls hst _ ih =>
    have hrest := ih (hkeep s l t hs hst)
    cases hl : g l with
    | none =>
      rw [List.filterMap_cons_none hl, ← hhidden s l t hs hst hl]
      exact hrest
    | some l' =>
      rw [List.filterMap_cons_some hl]
      exact .cons (hshown s l t l' hs hst hl) hrest

end LabelledSystem
