import Codechiev.Net.Timer
import Mathlib.Order.Monotone.Defs

/-!
# Tasks that add themselves

`addTask` runs a task that is due at once, inside the call. A task that adds itself again, a period
after the time it reads, may find itself due again, and then calls itself without an end. Each
call can be the last only through the first task in the queue or through the clock
(`returns_iff`): with an empty queue and a period below the tolerance none is, however the clock
runs.
-/

namespace Codechiev

namespace TimerQueue

variable {α : Type*}

/-- `addTask(expired, task)`, where the task, when it is run, calls `addTask(Time::Now() + period,
    task)`; with a bound on how deep the calls nest. `clock` lists what the clock is read as: the
    call number `k` reads it at `2 * k`, and the task that it runs at `2 * k + 1`. -/
def addTaskNested (clock : ℕ → ℕ) (period : ℤ) (task : α) :
    ℕ → TimerQueue α → ℕ → ℤ → Option (TimerQueue α)
  | 0, _, _, _ => none
  | depth + 1, q, k, expired =>
    match q.addTask (clock (2 * k)) expired task with
    | (q', none) => some q'
    | (q', some _) => addTaskNested clock period task depth q' (k + 1) (clock (2 * k + 1) + period)

/-- The call returns. -/
def Returns (q : TimerQueue α) (clock : ℕ → ℕ) (period : ℤ) (task : α) (expired : ℤ) : Prop :=
  ∃ depth, (q.addTaskNested clock period task depth 0 expired).isSome

/-- The expiry that the `j`-th call from number `k` on is given, if all before it nest. -/
def deadline (clock : ℕ → ℕ) (period : ℤ) (k : ℕ) (expired : ℤ) : ℕ → ℤ
  | 0 => expired
  | j + 1 => clock (2 * (k + j) + 1) + period

/-- A call with that expiry does not run the task: it joins the first one in the queue, or is not
    due. -/
def Queues (q : TimerQueue α) (expired : ℤ) (now : ℕ) : Prop :=
  q.Joins expired ∨ ¬ Due expired now

variable {q : TimerQueue α} {clock : ℕ → ℕ} {period expired : ℤ} {task : α} {k : ℕ}

/-- The calls after the first one are those from the next number on. -/
theorem queues_succ (j : ℕ) :
    q.Queues (deadline clock period k expired (j + 1)) (clock (2 * (k + (j + 1)))) ↔
      q.Queues (deadline clock period (k + 1) (clock (2 * k + 1) + period) j)
        (clock (2 * (k + 1 + j))) := by
  have hnumber : k + (j + 1) = k + 1 + j := by omega
  have hdeadline : deadline clock period k expired (j + 1) =
      deadline clock period (k + 1) (clock (2 * k + 1) + period) j := by
    cases j with
    | zero => rfl
    | succ i =>
      have hlater : k + (i + 1) = k + 1 + i := by omega
      show (clock (2 * (k + (i + 1)) + 1) + period : ℤ) = clock (2 * (k + 1 + i) + 1) + period
      rw [hlater]
  rw [hnumber, hdeadline]

/-- A call ends within a depth if one of that many nested calls does not run the task. -/
theorem addTaskNested_isSome_iff (depth : ℕ) :
    (q.addTaskNested clock period task depth k expired).isSome ↔
      ∃ j < depth, q.Queues (deadline clock period k expired j) (clock (2 * (k + j))) := by
  induction depth generalizing k expired with
  | zero =>
    rw [addTaskNested]
    exact ⟨fun h => absurd h Bool.false_ne_true, fun ⟨_, hj, _⟩ => absurd hj (Nat.not_lt_zero _)⟩
  | succ depth ih =>
    have hfirst : q.Queues expired (clock (2 * k)) →
        ∃ j < depth + 1, q.Queues (deadline clock period k expired j) (clock (2 * (k + j))) :=
      fun h => ⟨0, Nat.succ_pos _, h⟩
    rcases q.addTask_cases (clock (2 * k)) expired task with
      ⟨hjoins, heq⟩ | ⟨hjoins, hdue, heq⟩ | ⟨-, hdue, heq⟩
    · rw [addTaskNested, heq]
      exact iff_of_true rfl (hfirst (.inl hjoins))
    · -- the task is run, and the next call is the first of those left
      rw [addTaskNested, heq]
      show (q.addTaskNested clock period task depth (k + 1)
        (clock (2 * k + 1) + period)).isSome ↔ _
      rw [ih]
      constructor
      · rintro ⟨j, hj, hq⟩
        exact ⟨j + 1, Nat.succ_lt_succ hj, (queues_succ j).mpr hq⟩
      · rintro ⟨j, hj, hq⟩
        cases j with
        | zero => exact absurd hq (not_or.mpr ⟨hjoins, not_not.mpr hdue⟩)
        | succ j => exact ⟨j, Nat.lt_of_succ_lt_succ hj, (queues_succ j).mp hq⟩
    · rw [addTaskNested, heq]
      exact iff_of_true rfl (hfirst (.inr hdue))

/-- The call returns exactly if one of the calls, as they nest, does not run the task. -/
theorem returns_iff_exists : q.Returns clock period task expired ↔
    ∃ k, q.Queues (deadline clock period 0 expired k) (clock (2 * k)) := by
  simp only [Returns, addTaskNested_isSome_iff, Nat.zero_add]
  constructor
  · rintro ⟨depth, j, -, hq⟩
    exact ⟨j, hq⟩
  · rintro ⟨j, hq⟩
    exact ⟨j + 1, j, Nat.lt_succ_self j, hq⟩

/-- Some expiry is due at that time, and too early to join the first task in the queue. -/
theorem exists_not_queues (q : TimerQueue α) (now : ℕ) : ∃ expired, ¬ q.Queues expired now := by
  simp only [Queues, Joins, Due, not_or, not_not]
  split
  · exact ⟨now, not_false, by simp [TIMER_ACCURACY]⟩
  · rename_i e _ _
    refine ⟨min (e.1 - TIMER_ACCURACY) now, ?_, ?_⟩ <;> simp only [TIMER_ACCURACY] <;> omega

/-- For every queue, every clock and every period: `addTask` with a task that adds itself returns,
    whatever the expiry, if and only if for one of the times that the task reads, the expiry a
    period later joins the first task in the queue, or is not due at the next reading. -/
theorem returns_iff (q : TimerQueue α) (clock : ℕ → ℕ) (period : ℤ) (task : α) :
    (∀ expired, q.Returns clock period task expired) ↔
      ∃ k, q.Joins (clock (2 * k + 1) + period) ∨
        ¬ Due (clock (2 * k + 1) + period) (clock (2 * k + 2)) := by
  have hlater : ∀ k expired, deadline clock period 0 expired (k + 1) =
      clock (2 * k + 1) + period := by
    intro k expired
    show (clock (2 * (0 + k) + 1) + period : ℤ) = _
    rw [Nat.zero_add]
  constructor
  · intro h
    -- an expiry with which the first call runs the task
    obtain ⟨expired, hrun⟩ := q.exists_not_queues (clock 0)
    obtain ⟨k, hq⟩ := returns_iff_exists.mp (h expired)
    cases k with
    | zero => exact absurd hq hrun
    | succ k =>
      rw [hlater] at hq
      exact ⟨k, hq⟩
  · rintro ⟨k, hq⟩ expired
    refine returns_iff_exists.mpr ⟨k + 1, ?_⟩
    rw [hlater]
    exact hq

/-! ## When a call can be the last -/

/-- When the clock moves on by little between the time that the task reads and the next test, the
    second call is the last. -/
theorem returns_of_slow_clock (h : (clock 2 : ℤ) + TIMER_ACCURACY ≤ clock 1 + period) :
    q.Returns clock period task expired := by
  refine returns_iff_exists.mpr ⟨1, .inr ?_⟩
  show ¬ (clock 1 + period - clock 2 < TIMER_ACCURACY)
  simp only [TIMER_ACCURACY] at h ⊢
  omega

/-- With a task in the queue and a clock that does not stand still for ever the calls come to join
    it. -/
theorem returns_of_queued {e : ℤ × α} {rest : List (ℤ × α)} (hq : q.tasks.entries = e :: rest)
    (hclock : ∀ t, ∃ k, t ≤ clock (2 * k + 1)) (hperiod : 0 ≤ period) :
    q.Returns clock period task expired := by
  obtain ⟨k, hk⟩ := hclock e.1.toNat
  refine returns_iff_exists.mpr ⟨k + 1, .inl ?_⟩
  rw [Joins, hq]
  show e.1 - (clock (2 * (0 + k) + 1) + period) < TIMER_ACCURACY
  rw [Nat.zero_add]
  simp only [TIMER_ACCURACY]
  omega

/-- With an empty queue, a period below the tolerance and a clock that does not run backwards, a
    task that is due once is due for ever. -/
theorem not_returns_of_short_period (hq : q.tasks.entries = []) (hclock : Monotone clock)
    (hperiod : period < TIMER_ACCURACY) (hdue : Due expired (clock 0)) :
    ¬ q.Returns clock period task expired := by
  rw [returns_iff_exists]
  rintro ⟨k, hjoins | hlate⟩
  · rw [Joins, hq] at hjoins
    exact hjoins
  · cases k with
    | zero => exact hlate hdue
    | succ k =>
      apply hlate
      have hle : clock (2 * (0 + k) + 1) ≤ clock (2 * (k + 1)) := hclock (by omega)
      show clock (2 * (0 + k) + 1) + period - clock (2 * (k + 1)) < TIMER_ACCURACY
      omega

/-- Every ten milliseconds, on a queue without tasks. -/
theorem addTask_captured :
    ¬ ∀ (q : TimerQueue Unit) (clock : ℕ → ℕ) (period expired : ℤ), Monotone clock → 0 < period →
      q.Returns clock period () expired := by
  intro h
  have hnever : ¬ (new : TimerQueue Unit).Returns id 10 () 0 :=
    not_returns_of_short_period rfl monotone_id (by decide) (by decide)
  exact hnever (h _ _ _ _ monotone_id (by decide))

end TimerQueue

end Codechiev
