import Codechiev.Library.Transition
import Codechiev.Net.Timer

/-!
# Runs of a `TimerQueue`

`addTask` and `expire` called one at a time, with the clock running in between. `expire` is one
step up to the end of its loop, and the tasks of its batch are started by steps of their own, so
that a task may call `addTask` before the next one starts. A record is kept of every task that was
given to `addTask` and of every task that was started, and when.

`addTask` compares a new expiry with the first one in the queue and not with the time the timer is
armed for, so a chain of additions, each within the tolerance of the one before, moves the first
expiry away from the armed time (`onTime_of_served`).
-/

namespace Codechiev

/-- A task with its expiry and the number of the `addTask` call that brought it. -/
abbrev TimedTask (α : Type*) := ℤ × ℕ × α

/-- The clock, the queue, the tasks that `expire` has taken and not started yet, and the record. -/
structure TimerRun (α : Type*) where
  now : ℕ
  queue : TimerQueue (ℕ × α)
  batch : List (TimedTask α)
  given : List (TimedTask α)
  started : List (TimedTask α × ℕ)

/-- One step of a run. -/
inductive TimerStep (α : Type*) where
  | tick (millis : ℕ)
  | addTask (expired : ℤ) (task : α)
  | fire
  | expire (samples : List ℕ)
  | runNext

namespace TimerRun

variable {α : Type*}

/-- A task joins the record, is queued or started. -/
def addTask (s : TimerRun α) (expired : ℤ) (task : α) : TimerRun α :=
  let out := s.queue.addTask s.now expired (s.given.length, task)
  { s with
    queue := out.1
    given := s.given ++ [(expired, s.given.length, task)]
    started := s.started ++ (out.2.toList.map fun numbered => ((expired, numbered), s.now)) }

/-- The steps. The timer fires when its time has come, and not again before it is armed again. The
    expiration, if there is one, is read before `expire` is called, and the batch of one call is
    started before the next call. -/
inductive Step : TimerRun α → TimerStep α → TimerRun α → Prop where
  | tick {s : TimerRun α} {millis : ℕ} : Step s (.tick millis) { s with now := s.now + millis }
  | addTask {s : TimerRun α} {expired : ℤ} {task : α} :
      Step s (.addTask expired task) (s.addTask expired task)
  | fire {s : TimerRun α} {millis : ℤ} (harmed : s.queue.timer = .armed millis)
      (hdue : millis ≤ s.now) :
      Step s .fire { s with queue := { s.queue with timer := .fired } }
  | expire {s : TimerRun α} {samples : List ℕ} {now : ℕ} {batch : List (TimedTask α)}
      {q : TimerQueue (ℕ × α)} (hbatch : s.batch = [])
      (hclock : (s.now :: samples ++ [now]).Pairwise (· ≤ ·))
      (hloop : { s.queue with timer := s.queue.timer.read }.expireLoop samples = some (batch, q)) :
      Step s (.expire samples) { s with now := now, queue := q, batch := batch }
  | runNext {s : TimerRun α} {x : TimedTask α} {rest : List (TimedTask α)}
      (hbatch : s.batch = x :: rest) :
      Step s .runNext { s with batch := rest, started := s.started ++ [(x, s.now)] }

/-- The runs of a new queue, from any time on. -/
def timerRuns (α : Type*) : LabelledSystem (TimerRun α) (TimerStep α) where
  init s := ∃ now, s = ⟨now, .new, [], [], []⟩
  step := Step

/-! ## Lateness -/

/-- If a task is queued and the timer has not fired, the timer is armed, for at most the tolerance
    after the first expiry. -/
def OnTime (s : TimerRun α) : Prop :=
  ∀ e rest, s.queue.tasks.entries = e :: rest → s.queue.timer ≠ .fired →
    ∃ millis, s.queue.timer = .armed millis ∧ millis ≤ e.1 + TIMER_ACCURACY

/-- An addition that leaves the timer alone is for a time that the armed time serves. -/
def Served (s : TimerRun α) : TimerStep α → Prop
  | .addTask expired _ => s.queue.Joins expired →
      ∀ millis, s.queue.timer = .armed millis → millis ≤ expired + TIMER_ACCURACY
  | _ => True

variable {s s' : TimerRun α}

theorem OnTime.addTask {expired : ℤ} {task : α} (h : s.OnTime)
    (hserved : s.Served (.addTask expired task)) : (s.addTask expired task).OnTime := by
  intro e rest hentries hfired
  simp only [TimerRun.addTask] at hentries hfired ⊢
  rcases s.queue.addTask_cases s.now expired (s.given.length, task) with
    ⟨hjoins, heq⟩ | ⟨-, -, heq⟩ | ⟨hjoins, hdue, heq⟩ <;>
    simp only [heq] at hentries hfired ⊢
  · -- the timer serves the old first task and, by the condition, the new one
    obtain ⟨first, others, hfirst, -⟩ := hjoins.exists_first
    obtain ⟨millis, harmed, hle⟩ := h first others hfirst hfired
    refine ⟨millis, harmed, ?_⟩
    rcases Multimap.first_insert hentries with rfl | hold
    · exact hserved hjoins millis harmed
    · have := Multimap.head_le hfirst hold
      omega
  · exact h e rest hentries hfired
  · -- the timer is armed for the new task, and the others expire later
    refine ⟨expired, TimerQueue.insertAndArm_timer _ hdue, ?_⟩
    rcases Multimap.first_insert hentries with rfl | hold
    · simp only [TIMER_ACCURACY]; omega
    · have := TimerQueue.le_of_not_joins hjoins hold
      simp only [TIMER_ACCURACY] at this ⊢; omega

theorem OnTime.step {l : TimerStep α} (h : s.OnTime) (hl : s.Served l) (hstep : Step s l s') :
    s'.OnTime := by
  cases hstep with
  | tick => exact h
  | addTask => exact h.addTask hl
  | fire harmed hdue => exact fun _ _ _ hfired => absurd rfl hfired
  | expire hbatch hclock hloop =>
    intro e rest hentries _
    obtain ⟨-, -, ⟨hempty, -⟩ | ⟨e', rest', now, hleft, -, -, htimer⟩⟩ :=
      TimerQueue.expireLoop_spec hloop
    · exact absurd (hentries.symm.trans hempty) (List.cons_ne_nil _ _)
    · obtain ⟨rfl, -⟩ := List.cons.inj (hentries.symm.trans hleft)
      exact ⟨e.1, htimer, by simp only [TIMER_ACCURACY]; omega⟩
  | runNext => exact h

/-- An addition that the armed time does not serve leaves a first expiry that it does not serve. -/
theorem not_onTime_of_not_served {expired : ℤ} {task : α}
    (h : ¬ s.Served (.addTask expired task)) : ¬ (s.addTask expired task).OnTime := by
  simp only [Served, not_forall, not_le] at h
  obtain ⟨hjoins, millis, harmed, hlate⟩ := h
  intro hon
  simp only [OnTime, TimerRun.addTask] at hon
  rcases s.queue.addTask_cases s.now expired (s.given.length, task) with
    ⟨-, heq⟩ | ⟨hnot, -⟩ | ⟨hnot, -⟩
  · simp only [heq] at hon
    have hne := s.queue.tasks.insert_ne_nil expired (s.given.length, task)
    obtain ⟨e, rest, hentries⟩ := List.exists_cons_of_ne_nil hne
    have htimer : (s.queue.insertTask expired (s.given.length, task)).timer = .armed millis :=
      harmed
    obtain ⟨millis', harmed', hle⟩ := hon e rest hentries (by simp [htimer])
    obtain rfl : millis = millis' := by simpa [htimer] using harmed'
    have := (Multimap.head_insert hentries).1
    omega
  · exact hnot hjoins
  · exact hnot hjoins

/-- In every run of `addTask` and `expire` calls in which each addition that leaves the timer alone
    is for a time that the armed time serves, the timer is armed for at most the tolerance after
    the first expiry. The first addition that is not ends that. The code does this for expiries and
    clock readings `InRange`. -/
theorem onTime_of_served (α : Type*) (s : TimerRun α)
    (h : ((timerRuns α).under Served).Reachable s) :
    s.OnTime ∧ ∀ (expired : ℤ) (task : α) (s' : TimerRun α),
      Step s (.addTask expired task) s' → ¬ s.Served (.addTask expired task) → ¬ s'.OnTime := by
  refine ⟨h.invariant (I := OnTime) ?_ ?_, ?_⟩
  · rintro s ⟨now, rfl⟩
    exact nofun
  · rintro s l s' - hs ⟨hl, hstep⟩
    exact hs.step hl hstep
  · intro expired task s' hstep hnot
    cases hstep with
    | addTask => exact not_onTime_of_not_served hnot

/-- At time 0, a task for 100 that arms the timer, and one for 71. -/
def chain : TimerRun Unit := (TimerRun.addTask ⟨0, .new, [], [], []⟩ 100 ()).addTask 71 ()

theorem served_step {l : TimerStep α} (h : ((timerRuns α).under Served).Reachable s)
    (hl : s.Served l) (hstep : Step s l s') : ((timerRuns α).under Served).Reachable s' :=
  .next l h ⟨hl, hstep⟩

theorem chain_reachable : ((timerRuns Unit).under Served).Reachable chain := by
  have hfirst := served_step (l := .addTask 100 ()) (.start ⟨0, rfl⟩) nofun .addTask
  refine served_step (l := .addTask 71 ()) hfirst (fun _ millis harmed => ?_) .addTask
  obtain rfl : 100 = millis := by simpa using (show TimerFd.armed 100 = .armed millis from harmed)
  decide

theorem chain_not_served : ¬ chain.Served (.addTask 42 ()) := fun h =>
  absurd (h (by decide) 100 (by decide)) (by decide)

/-- The third task, for 42, joins the second, and the timer stays armed for 100. -/
theorem chain_runs_late : ¬ ∀ s : TimerRun Unit, (timerRuns Unit).Reachable s → s.OnTime := by
  intro h
  obtain ⟨millis, harmed, hle⟩ :=
    h (chain.addTask 42 ()) (.next (.addTask 42 ()) chain_reachable.of_under .addTask) (42, 2, ())
      _ rfl (by decide)
  obtain rfl : 100 = millis := by simpa using (show TimerFd.armed 100 = .armed millis from harmed)
  exact absurd hle (by decide)

theorem onTime_chain : chain.OnTime ∧ ¬ (chain.addTask 42 ()).OnTime := by
  obtain ⟨hon, hlate⟩ := onTime_of_served Unit chain chain_reachable
  exact ⟨hon, hlate 42 () _ .addTask chain_not_served⟩

end TimerRun

end Codechiev
