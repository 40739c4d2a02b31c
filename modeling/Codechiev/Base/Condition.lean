import Codechiev.Library.Transition
import Codechiev.Library.WaitSet

/-!
# `base::Condition` and `base::CountLatch`

The condition variable that the queue and the latch wait on, and the latch: threads in `latch()`
wait until the count is down to zero. Each critical section is one step, `wait` included, which
ends one, and the return from it starts another.

`reduce` signals one thread only, also when it is the call that brings the count down
(`released_of_careful`).
-/

namespace Codechiev

/-- `class Condition`. -/
abbrev Condition (τ : Type*) := WaitSet τ

namespace Condition

variable {τ : Type*} [DecidableEq τ]

/-- `wait(Mutex&)`, up to the point where the thread is asleep. -/
def wait (cond : Condition τ) (t : τ) : Condition τ := WaitSet.sleep cond t

/-- `notify()`. -/
def Notify (cond cond' : Condition τ) : Prop := WaitSet.Signal cond cond'

/-- `notifyall()`. -/
def notifyall (cond : Condition τ) : Condition τ := WaitSet.broadcast cond

end Condition

/-- `class CountLatch`. -/
structure CountLatch (τ : Type*) where
  count : ℤ
  cond : Condition τ

/-- A step: a thread calls `latch()`, or takes the mutex again after it was woken, or wakes by
    itself; some thread calls `reduce`. -/
inductive LatchStep (τ : Type*) where
  | latch (t : τ)
  | retake (t : τ)
  | wake (t : τ)
  | reduce (val : ℤ)

namespace CountLatch

variable {τ : Type*} [DecidableEq τ]

/-- The loop of `latch()`, up to the next `wait` or to the return. -/
def loop (s : CountLatch τ) (t : τ) : CountLatch τ :=
  if s.count > 0 then { s with cond := Condition.wait s.cond t } else s

inductive Step : CountLatch τ → LatchStep τ → CountLatch τ → Prop where
  | latch {s : CountLatch τ} {t : τ} (ht : ¬ s.cond.Waits t) : Step s (.latch t) (s.loop t)
  | retake {s : CountLatch τ} {t : τ} (ht : t ∈ s.cond.woken) :
      Step s (.retake t) ({ s with cond := s.cond.resume t }.loop t)
  | wake {s : CountLatch τ} {t : τ} (ht : t ∈ s.cond.sleeping) :
      Step s (.wake t) { s with cond := s.cond.wake t }
  | reduce {s : CountLatch τ} {val : ℤ} {cond : Condition τ} (hval : 0 < val)
      (hcond : Condition.Notify s.cond cond) :
      Step s (.reduce val) { count := s.count - val, cond := cond }

/-- The runs of a latch made with the count `c`. -/
def latchRuns (τ : Type*) [DecidableEq τ] (c : ℤ) :
    LabelledSystem (CountLatch τ) (LatchStep τ) where
  init s := s = ⟨c, .empty⟩
  step := Step

/-- Once the count is down, nobody sleeps. -/
def Released (s : CountLatch τ) : Prop := s.count ≤ 0 → s.cond.sleeping = ∅

/-- The call brings the count down to zero or below. -/
def Opens (s : CountLatch τ) (val : ℤ) : Prop := 0 < s.count ∧ s.count - val ≤ 0

/-- A call that brings the count down finds at most one thread asleep. -/
def Careful (s : CountLatch τ) : LatchStep τ → Prop
  | .reduce val => s.Opens val → s.cond.sleeping.card ≤ 1
  | _ => True

variable {s s' : CountLatch τ} {l : LatchStep τ} {t : τ} {val : ℤ}

theorem Released.loop (h : s.Released) (t : τ) : (s.loop t).Released := by
  simp only [CountLatch.loop]
  split
  · intro hcount
    exact absurd hcount (not_le.mpr ‹_›)
  · exact h

theorem released_step (h : s.Released) (hl : s.Careful l) (hstep : Step s l s') :
    s'.Released := by
  cases hstep with
  | latch ht => exact h.loop _
  | @retake t ht =>
    have hresumed : Released { s with cond := s.cond.resume t } := h
    exact hresumed.loop t
  | wake ht =>
    intro hcount
    exact Finset.subset_empty.mp ((Finset.erase_subset _ _).trans (h hcount).subset)
  | @reduce val cond hval hcond =>
    intro hcount
    by_cases hopen : 0 < s.count
    · exact hcond.sleeping_eq_empty (hl ⟨hopen, hcount⟩)
    · exact Finset.subset_empty.mp (hcond.sleeping_subset.trans (h (not_lt.mp hopen)).subset)

/-- In every run in which each `reduce` that brings the count down finds at most one thread asleep,
    nobody sleeps once the count is down. The first such call that finds more ends that. -/
theorem released_of_careful (τ : Type*) [DecidableEq τ] (c : ℤ) (s : CountLatch τ)
    (h : ((latchRuns τ c).under Careful).Reachable s) :
    s.Released ∧ ∀ val s', Step s (.reduce val) s' → s.Opens val →
      1 < s.cond.sleeping.card → ¬ s'.Released := by
  constructor
  · refine h.invariant (I := Released) ?_ ?_
    · rintro s rfl -
      rfl
    · rintro s l s' - hs ⟨hl, hstep⟩
      exact released_step hs hl hstep
  · rintro val s' hstep ⟨-, hdown⟩ hmany hreleased
    cases hstep with
    | reduce hval hcond => exact hcond.sleeping_ne_empty hmany (hreleased hdown)

/-- Two threads wait for one `reduce`. -/
def twoWaiting : CountLatch Bool := ((CountLatch.mk 1 .empty).loop false).loop true

theorem twoWaiting_reachable : ((latchRuns Bool 1).under Careful).Reachable twoWaiting := by
  have hfirst : Step (CountLatch.mk 1 .empty) (.latch false) _ := .latch WaitSet.not_waits_empty
  have hsecond : Step ((CountLatch.mk 1 .empty).loop false) (.latch true) twoWaiting :=
    .latch (by simp [loop, Condition.wait, WaitSet.waits_sleep])
  have hreach : ((latchRuns Bool 1).under Careful).Reachable _ :=
    .next (.latch false) (.start rfl) ⟨trivial, hfirst⟩
  exact .next (.latch true) hreach ⟨trivial, hsecond⟩

/-- One of them is woken, the other sleeps on. -/
theorem reduce_leaves_sleeper :
    ¬ ∀ s : CountLatch Bool, (latchRuns Bool 1).Reachable s → s.Released := by
  intro h
  have hreduce : Step twoWaiting (.reduce 1) ⟨0, twoWaiting.cond.wake false⟩ :=
    .reduce (by decide) (.wakes (by decide))
  have hempty := h _ (.next _ twoWaiting_reachable.of_under hreduce) le_rfl
  revert hempty
  decide

theorem twoWaiting_released :
    twoWaiting.Released ∧ ∀ val s', Step twoWaiting (.reduce val) s' → twoWaiting.Opens val →
      1 < twoWaiting.cond.sleeping.card → ¬ s'.Released :=
  released_of_careful Bool 1 twoWaiting twoWaiting_reachable

end CountLatch

end Codechiev
