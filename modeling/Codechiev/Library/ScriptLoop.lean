import Mathlib.Data.List.Basic

/-!
# Loops that are driven by answers

A `ScriptLoop` is a loop without a counter: each iteration takes one answer of its surroundings,
changes the state, and may return. `run` follows a script of answers, `turns` lists the iterations
that take place, and `Ends` says that one of them returns. The rules are those a proof about such
a loop needs: an invariant holds wherever an iteration starts, and a script that is followed for
ever by an answer on which no iteration returns ends the loop by itself or not at all.
-/

/-- The body of a loop: the state after the iteration, and what it returns, if it does. -/
structure ScriptLoop (σ ρ ε : Type*) where
  iter : σ → ρ → σ × Option ε

namespace ScriptLoop

variable {σ ρ ε : Type*} (l : ScriptLoop σ ρ ε)

/-- The final state and the value returned, unless the script runs out. -/
def run : σ → List ρ → Option (σ × ε)
  | _, [] => none
  | s, r :: rs =>
    match l.iter s r with
    | (s', some x) => some (s', x)
    | (s', none) => run s' rs

/-- The iterations that take place: the state each starts in, and its answer. -/
def turns : σ → List ρ → List (σ × ρ)
  | _, [] => []
  | s, r :: rs => (s, r) :: if (l.iter s r).2.isSome then [] else turns (l.iter s r).1 rs

/-- An iteration of the script returns. -/
def Ends : σ → List ρ → Prop
  | _, [] => False
  | s, r :: rs => (l.iter s r).2.isSome ∨ Ends (l.iter s r).1 rs

variable {l} {s : σ} {r : ρ} {rs : List ρ}

theorem turns_of_return (h : (l.iter s r).2.isSome) : l.turns s (r :: rs) = [(s, r)] := by
  rw [turns, if_pos h]

theorem turns_of_none (h : (l.iter s r).2 = none) :
    l.turns s (r :: rs) = (s, r) :: l.turns (l.iter s r).1 rs := by
  rw [turns, if_neg (by rw [h]; simp)]

theorem run_of_none (h : (l.iter s r).2 = none) : l.run s (r :: rs) = l.run (l.iter s r).1 rs := by
  rw [run]
  split <;> rename_i heq <;> simp_all

/-- The loop returns on exactly the scripts that end it. -/
theorem run_isSome_iff : (l.run s rs).isSome ↔ l.Ends s rs := by
  induction rs generalizing s with
  | nil => simp [run, Ends]
  | cons r rs ih =>
    rw [Ends, ← ih]
    cases h : (l.iter s r).2 with
    | none => simp [run_of_none h]
    | some x =>
      rw [run]
      split <;> rename_i heq <;> simp_all

/-- What an iteration that does not return preserves holds wherever an iteration starts. -/
theorem turns_invariant {I : σ → Prop} (hs : I s)
    (hstep : ∀ s r, I s → (l.iter s r).2 = none → I (l.iter s r).1) :
    ∀ t ∈ l.turns s rs, I t.1 := by
  induction rs generalizing s with
  | nil => simp [turns]
  | cons r rs ih =>
    cases h : (l.iter s r).2 with
    | some x =>
      rw [turns_of_return (by rw [h]; rfl)]
      simpa using hs
    | none =>
      rw [turns_of_none h]
      exact List.forall_mem_cons.mpr ⟨hs, ih (hstep s r hs h)⟩

/-- Answers on which no iteration returns end no loop, however many follow. -/
theorem ends_append_replicate (hr : ∀ s, (l.iter s r).2 = none) (n : ℕ) :
    l.Ends s (rs ++ List.replicate n r) ↔ l.Ends s rs := by
  induction rs generalizing s with
  | nil =>
    show l.Ends s (List.replicate n r) ↔ False
    induction n generalizing s with
    | zero => rfl
    | succ n ih =>
      rw [List.replicate_succ, Ends, ih, hr]
      simp
  | cons r' rs ih => rw [List.cons_append, Ends, Ends, ih]

end ScriptLoop
