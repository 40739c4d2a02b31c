import Codechiev.Net.TimerDelivery

/-!
# When a `TimerQueue` starts its tasks

The thread of the queue reads the timer and calls `expire` within `delay` milliseconds of the time
the timer is armed for, and gets through a batch within `work` milliseconds of that call, so tasks
may take time, and one that holds the thread beyond the next armed time is part of the delay. A task
is then started less than the tolerance before its expiry, and no later than the tolerance, the
delay and the work after it (`punctual_of_served`). What it takes of the callers is that no task is
added later than the tolerance itself, and that the additions that leave the timer alone are served
by it.
-/

namespace Codechiev

theorem TimerFd.read_ne_fired (t : TimerFd) : t.read ≠ .fired := by
  intro h
  cases t <;> cases h

/-- A run with two records: the time the timer was armed for when it fired last, and the time at
    which `expire` was called last. -/
structure BusyRun (α : Type*) extends TimerRun α where
  due : ℤ
  called : ℕ

namespace BusyRun

variable {α : Type*}

/-- What the timer was armed for, if it was. -/
def dueAfter (s : BusyRun α) : TimerStep α → ℤ
  | .fire =>
    match s.queue.timer with
    | .armed millis => millis
    | .disarmed | .fired => s.due
  | .tick _ | .addTask _ _ | .expire _ | .runNext => s.due

def calledAfter (s : BusyRun α) : TimerStep α → ℕ
  | .expire _ => s.now
  | .tick _ | .addTask _ _ | .fire | .runNext => s.called

/-- The records after a step to `t`. -/
def after (s : BusyRun α) (l : TimerStep α) (t : TimerRun α) : BusyRun α :=
  ⟨t, s.dueAfter l, s.calledAfter l⟩

/-- The clock is not past the armed time by more than `delay`, be it that the timer has yet to fire
    or that `expire` has yet to be called, nor past the call of `expire` by more than `work` as long
    as tasks of its batch are to be started. -/
structure Prompt (delay work : ℕ) (s : BusyRun α) : Prop where
  armed : ∀ due, s.queue.timer = .armed due → (s.now : ℤ) ≤ due + delay
  fired : s.queue.timer = .fired → (s.now : ℤ) ≤ s.due + delay
  busy : s.batch ≠ [] → s.now ≤ s.called + work

/-- No task is added more than the tolerance after its expiry. -/
def Early (s : BusyRun α) : TimerStep α → Prop
  | .addTask expired _ => (s.now : ℤ) ≤ expired + TIMER_ACCURACY
  | .tick _ | .fire | .expire _ | .runNext => True

/-- The timer is on time, has fired for a time that serves every task in the queue, and no task of
    the batch or that was started is late. -/
structure Punctual (delay work : ℕ) (s : BusyRun α) : Prop where
  prompt : s.Prompt delay work
  onTime : s.OnTime
  fired : s.queue.timer = .fired → s.due ≤ s.now ∧
    ∀ x ∈ s.queue.tasks.entries, s.due ≤ x.1 + TIMER_ACCURACY
  batched : ∀ x ∈ s.batch, (s.called : ℤ) ≤ x.1 + TIMER_ACCURACY + delay
  started : ∀ x ∈ s.started, (x.2 : ℤ) ≤ x.1.1 + TIMER_ACCURACY + delay + work

namespace Punctual

variable {s : BusyRun α} {t : TimerRun α} {l : TimerStep α} {delay work : ℕ}

/-- A task in the queue is not late: the timer, armed or fired, serves it. -/
theorem queued (h : s.Punctual delay work) :
    ∀ x ∈ s.queue.tasks.entries, (s.now : ℤ) ≤ x.1 + TIMER_ACCURACY + delay := by
  intro x hx
  by_cases hfired : s.queue.timer = .fired
  · have hdue := (h.fired hfired).2 x hx
    have hnow := h.prompt.fired hfired
    omega
  · obtain ⟨e, rest, hentries⟩ := List.exists_cons_of_ne_nil (List.ne_nil_of_mem hx)
    obtain ⟨due, harmed, hle⟩ := h.onTime e rest hentries hfired
    have hnow := h.prompt.armed due harmed
    have hfirst := Multimap.head_le hentries hx
    omega

/-- A task of the batch is not late either. -/
theorem waiting (h : s.Punctual delay work) :
    ∀ x ∈ s.batch, (s.now : ℤ) ≤ x.1 + TIMER_ACCURACY + delay + work := by
  intro x hx
  have hcalled := h.batched x hx
  have hnow := h.prompt.busy (List.ne_nil_of_mem hx)
  omega

theorem addTask {expired : ℤ} {task : α} (h : s.Punctual delay work)
    (hearly : (s.now : ℤ) ≤ expired + TIMER_ACCURACY)
    (hserved : s.toTimerRun.Served (.addTask expired task))
    (hprompt : (s.after (.addTask expired task) (s.addTask expired task)).Prompt delay work) :
    (s.after (.addTask expired task) (s.addTask expired task)).Punctual delay work := by
  refine ⟨hprompt, h.onTime.addTask hserved, fun hfired => ?_, h.batched, ?_⟩
  · -- the timer was not armed anew, so it had fired before, and then `due` is past
    have hbefore : s.queue.timer = .fired ∧ ∀ x ∈ (s.addTask expired task).queue.tasks.entries,
        x ∈ s.queue.tasks.entries ∨ x.1 = expired := by
      have hfired : (s.addTask expired task).queue.timer = .fired := hfired
      simp only [TimerRun.addTask] at hfired ⊢
      rcases s.queue.addTask_cases s.now expired (s.given.length, task) with
        ⟨-, heq⟩ | ⟨-, -, heq⟩ | ⟨-, hdue, heq⟩
      · rw [heq] at hfired ⊢
        refine ⟨hfired, fun x hx => ?_⟩
        rcases Multimap.mem_insert.mp hx with rfl | hx
        · exact .inr rfl
        · exact .inl hx
      · rw [heq] at hfired ⊢
        exact ⟨hfired, fun x hx => .inl hx⟩
      · rw [heq, TimerQueue.insertAndArm_timer _ hdue] at hfired
        cases hfired
    obtain ⟨hdue, hserves⟩ := h.fired hbefore.1
    refine ⟨hdue, fun x hx => ?_⟩
    rcases hbefore.2 x hx with hx | hx
    · exact hserves x hx
    · have hnow : s.due ≤ expired + TIMER_ACCURACY := hdue.trans hearly
      exact hx ▸ hnow
  · show ∀ x ∈ (s.addTask expired task).started, _
    rcases s.addTask_spec expired task with ⟨-, hstarted⟩ | ⟨-, -, hstarted⟩
    · rw [hstarted]
      exact h.started
    · rw [hstarted, List.forall_mem_append, List.forall_mem_singleton]
      refine ⟨h.started, ?_⟩
      show (s.now : ℤ) ≤ expired + TIMER_ACCURACY + delay + work
      omega

/-- The timer serves every task in the queue, so it does when it fires. -/
theorem fire {millis : ℤ} (h : s.Punctual delay work) (harmed : s.queue.timer = .armed millis)
    (hdue : millis ≤ s.now)
    (hprompt : (s.after .fire
      { s.toTimerRun with queue := { s.queue with timer := .fired } }).Prompt delay work) :
    (s.after .fire
      { s.toTimerRun with queue := { s.queue with timer := .fired } }).Punctual delay work := by
  have hrecord : s.dueAfter .fire = millis := by rw [dueAfter, harmed]
  refine ⟨hprompt, fun _ _ _ hnot => absurd rfl hnot, fun _ => ?_, h.batched, h.started⟩
  show s.dueAfter .fire ≤ s.now ∧ ∀ x ∈ s.queue.tasks.entries, s.dueAfter .fire ≤ _
  rw [hrecord]
  refine ⟨hdue, fun x hx => ?_⟩
  obtain ⟨e, rest, hentries⟩ := List.exists_cons_of_ne_nil (List.ne_nil_of_mem hx)
  obtain ⟨due, hsame, hle⟩ := h.onTime e rest hentries (by rw [harmed]; exact nofun)
  obtain rfl := TimerFd.armed.inj (harmed.symm.trans hsame)
  have hfirst := Multimap.head_le hentries hx
  omega

theorem step (h : s.Punctual delay work) (hearly : s.Early l) (hserved : s.toTimerRun.Served l)
    (hstep : TimerRun.Step s.toTimerRun l t) (hprompt : (s.after l t).Prompt delay work) :
    (s.after l t).Punctual delay work := by
  have hon : t.OnTime := h.onTime.step hserved hstep
  cases hstep with
  | @tick millis =>
    refine ⟨hprompt, hon, fun hfired => ?_, h.batched, h.started⟩
    obtain ⟨hdue, hserves⟩ := h.fired hfired
    exact ⟨hdue.trans (by exact_mod_cast Nat.le_add_right _ _), hserves⟩
  | addTask => exact h.addTask hearly hserved hprompt
  | fire harmed hdue => exact h.fire harmed hdue hprompt
  | @expire samples now batch q hbatch hclock hloop =>
    -- what it takes was in the queue when it was called
    obtain ⟨hfront, -, hleft⟩ := TimerQueue.expireLoop_spec hloop
    have hqueued := h.queued
    have hentries : s.queue.tasks.entries = batch ++ q.tasks.entries := hfront
    rw [hentries, List.forall_mem_append] at hqueued
    have hread : q.timer ≠ .fired := by
      rcases hleft with ⟨-, htimer⟩ | ⟨e, rest, now, -, -, -, htimer⟩
      · rw [htimer]
        exact TimerFd.read_ne_fired _
      · rw [htimer]
        exact TimerFd.noConfusion
    exact ⟨hprompt, hon, fun hfired => absurd hfired hread, hqueued.1, h.started⟩
  | @runNext x rest hnext =>
    have hbatched := h.batched
    have hnow := h.waiting x (hnext ▸ List.mem_cons_self)
    rw [hnext, List.forall_mem_cons] at hbatched
    refine ⟨hprompt, hon, h.fired, hbatched.2, ?_⟩
    show ∀ y ∈ s.started ++ [(x, s.now)], _
    rw [List.forall_mem_append, List.forall_mem_singleton]
    exact ⟨h.started, hnow⟩

end Punctual

end BusyRun

end Codechiev
