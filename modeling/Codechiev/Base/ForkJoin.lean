import Codechiev.Base.QueueDestructor
import Mathlib.Algebra.BigOperators.Group.Finset.Basic
import Mathlib.Algebra.Order.Group.Multiset
import Mathlib.Data.Fintype.Basic
import Mathlib.Data.List.ReduceOption
import Mathlib.Tactic.Abel

/-!
# Jobs that are waited for

The main thread starts a queue, adds jobs that each end with `latch.reduce(1)`, and waits in
`latch.latch()`, which was made with the number of jobs. It comes out of the latch when every job
has been run, and not before; as long as it is inside, it or a worker can take a step; and there are
only so many steps to take, but for threads that wake without a reason (`latched_of_run`).
-/

namespace Codechiev

/-- Where the main thread is: in front of `commence`, past its test, at the threads that it has yet
    to start and the jobs that it has yet to add, in the wait of `latch()`, or past it. -/
inductive MainPhase (τ α : Type*) where
  | fresh
  | commencing
  | adding (threads : List τ) (jobs : List α)
  | waiting
  | past

/-- A queue and a latch, the workers that have called `reduce` in the job they are in, the jobs in
    which it was called, and the main thread. -/
structure ForkJoin (τ α : Type*) extends BlockingQueue τ α where
  latch : CountLatch Unit
  counted : τ → Bool
  ran : List α
  main : MainPhase τ α

/-- A step of the main thread, of a worker in the queue or in `reduce`, or the main thread waking by
    itself. -/
inductive ForkStep (τ α : Type*) where
  | main
  | worker (l : QueueStep τ α)
  | reduce (t : τ)
  | wakeMain

/-- A thread wakes without a reason. -/
def ForkStep.isWake {τ α : Type*} : ForkStep τ α → Bool
  | worker (.wake _) | wakeMain => true
  | _ => false

namespace ForkJoin

variable {τ α : Type*}

/-- Where `latch()` leaves the main thread. -/
def afterLatch (latch : CountLatch Unit) : MainPhase τ α :=
  if latch.cond.sleeping = ∅ then .past else .waiting

/-- A job returns, once it has called `reduce`. -/
def Ends (s : ForkJoin τ α) : QueueStep τ α → Prop
  | .finish t ended => ended = .returns ∧ s.counted t = true
  | _ => True

variable [DecidableEq τ]

/-- `counted` after a step of a worker. -/
def afterWorker (counted : τ → Bool) : QueueStep τ α → τ → Bool
  | .finish t _ => Function.update counted t false
  | _ => counted

/-- The steps, with the threads that `commence` starts and the jobs. -/
inductive Step (threads : List τ) (jobs : List α) :
    ForkJoin τ α → ForkStep τ α → ForkJoin τ α → Prop where
  | commence {s : ForkJoin τ α} {q : BlockingQueue τ α} (hmain : s.main = .fresh)
      (hq : BlockingQueue.Step threads.length s.toBlockingQueue .commence q) :
      Step threads jobs s .main { s with toBlockingQueue := q, main := .commencing }
  | run {s : ForkJoin τ α} {q : BlockingQueue τ α} (hmain : s.main = .commencing)
      (hq : BlockingQueue.Step threads.length s.toBlockingQueue .run q) :
      Step threads jobs s .main { s with toBlockingQueue := q, main := .adding threads jobs }
  | start {s : ForkJoin τ α} {q : BlockingQueue τ α} {t : τ} {ts : List τ} {js : List α}
      (hmain : s.main = .adding (t :: ts) js)
      (hq : BlockingQueue.Step threads.length s.toBlockingQueue (.start t) q) :
      Step threads jobs s .main { s with toBlockingQueue := q, main := .adding ts js }
  | addJob {s : ForkJoin τ α} {q : BlockingQueue τ α} {job : α} {js : List α}
      (hmain : s.main = .adding [] (job :: js))
      (hq : BlockingQueue.Step threads.length s.toBlockingQueue (.addJob (some job)) q) :
      Step threads jobs s .main { s with toBlockingQueue := q, main := .adding [] js }
  | latch {s : ForkJoin τ α} {l : CountLatch Unit} (hmain : s.main = .adding [] [])
      (hl : CountLatch.Step s.latch (.latch ()) l) :
      Step threads jobs s .main { s with latch := l, main := afterLatch l }
  -- `wait()` has returned in `latch()`, and `count_` is tested again
  | retake {s : ForkJoin τ α} {l : CountLatch Unit} (hl : CountLatch.Step s.latch (.retake ()) l) :
      Step threads jobs s .main { s with latch := l, main := afterLatch l }
  | wakeMain {s : ForkJoin τ α} {l : CountLatch Unit} (hl : CountLatch.Step s.latch (.wake ()) l) :
      Step threads jobs s .wakeMain { s with latch := l }
  | worker {s : ForkJoin τ α} {q : BlockingQueue τ α} {t : τ} {l : QueueStep τ α}
      (hl : l.worker = some t) (hends : s.Ends l)
      (hq : BlockingQueue.Step threads.length s.toBlockingQueue l q) :
      Step threads jobs s (.worker l)
        { s with toBlockingQueue := q, counted := afterWorker s.counted l }
  -- the last thing that the job does
  | reduce {s : ForkJoin τ α} {t : τ} {job : α} {l : CountLatch Unit}
      (ht : s.workers t = .invoking job) (hcounted : s.counted t = false)
      (hl : CountLatch.Step s.latch (.reduce 1) l) :
      Step threads jobs s (.reduce t)
        { s with latch := l, counted := Function.update s.counted t true, ran := s.ran ++ [job] }

def start (jobs : List α) : ForkJoin τ α :=
  ⟨.new τ α, ⟨jobs.length, .empty⟩, fun _ => false, [], .fresh⟩

def forkRuns (threads : List τ) (jobs : List α) :
    LabelledSystem (ForkJoin τ α) (ForkStep τ α) where
  init s := s = start jobs
  step := Step threads jobs

end ForkJoin

/-! ## One step of a worker -/

namespace BlockingQueue

variable {τ α : Type*} [DecidableEq τ] {s q : BlockingQueue τ α} {t : τ} {n : ℕ}
  {l : QueueStep τ α}

/-- The worker is about to run the loop of `takeJob`, and the condition variable when it does. -/
inductive Enters (s : BlockingQueue τ α) (t : τ) : Condition τ → Prop where
  | calls (ht : s.workers t = .looping) : Enters s t s.cond
  | retakes (hw : s.workers t = .waiting) (ht : t ∈ s.cond.woken) : Enters s t (s.cond.resume t)

/-- What a step of worker `t` makes of a running queue. -/
inductive Turn (s q : BlockingQueue τ α) (t : τ) : QueueStep τ α → Prop where
  | wakes (ht : t ∈ s.cond.sleeping) (hq : q = { s with cond := s.cond.wake t }) :
      Turn s q t (.wake t)
  | waits {l : QueueStep τ α} {c : Condition τ} (hl : ∀ u e, l ≠ .finish u e)
      (henters : s.Enters t c) (hqueue : q.queue = s.queue)
      (hworkers : q.workers = Function.update s.workers t .waiting) (hcond : q.cond = c.sleep t) :
      Turn s q t l
  | takes {l : QueueStep τ α} {c : Condition τ} {job : Option α} (hl : ∀ u e, l ≠ .finish u e)
      (henters : s.Enters t c) (hqueue : s.queue = job :: q.queue)
      (hworkers : q.workers = Function.update s.workers t (.taken job))
      (hcond : q.cond = c ∨ c.Signal q.cond) : Turn s q t l
  | invokes {job : α} (ht : s.workers t = .taken (some job)) (hqueue : q.queue = s.queue)
      (hworkers : q.workers = Function.update s.workers t (.invoking job))
      (hcond : q.cond = s.cond) : Turn s q t (.invoke t)
  | skips (ht : s.workers t = .taken none) (hqueue : q.queue = s.queue)
      (hworkers : q.workers = Function.update s.workers t .looping) (hcond : q.cond = s.cond) :
      Turn s q t (.skip t)
  | finishes {job : α} {ended : JobEnd} (ht : s.workers t = .invoking job)
      (hqueue : q.queue = s.queue)
      (hworkers : q.workers = Function.update s.workers t (afterJob ended))
      (hcond : q.cond = s.cond) : Turn s q t (.finish t ended)

/-- The loop of `takeJob`, run with the mutex held. -/
theorem TakeJob.turn {s₀ : BlockingQueue τ α} (h : TakeJob t s₀ q) (hl : ∀ u e, l ≠ .finish u e)
    (henters : s.Enters t s₀.cond) (hrun : s₀.running = true) (hqueue : s₀.queue = s.queue)
    (hworkers : s₀.workers = s.workers) : Turn s q t l := by
  cases h with
  | wait _ _ => exact .waits hl henters hqueue (congrArg (Function.update · t _) hworkers) rfl
  | quit hstop => cases hrun.symm.trans hstop
  | @take job rest cond htaken _ hcond =>
    refine .takes hl henters (hqueue.symm.trans htaken)
      (congrArg (Function.update · t _) hworkers) ?_
    split at hcond
    · exact .inl hcond
    · exact .inr hcond

theorem turn_of_step (hstep : Step n s l q) (hl : l.worker = some t) (hrun : s.running = true)
    (hwaits : ∀ t, t ∈ s.cond.woken → s.workers t = .waiting) : Turn s q t l := by
  cases hstep with
  | takeJob ht htake =>
    cases hl
    exact htake.turn nofun (.calls ht) hrun rfl rfl
  | retake ht htake =>
    cases hl
    exact htake.turn nofun (.retakes (hwaits t ht) ht) hrun rfl rfl
  | wake ht =>
    cases hl
    exact .wakes ht rfl
  | invoke ht =>
    cases hl
    exact .invokes ht rfl rfl rfl
  | skip ht =>
    cases hl
    exact .skips ht rfl rfl rfl
  | finish ht =>
    cases hl
    exact .finishes ht rfl rfl rfl
  | addJob => cases hl
  | stop => cases hl
  | commence => cases hl
  | run => cases hl
  | start => cases hl

omit [DecidableEq τ] in
theorem added_record {e : QueueEvent τ α} (he : added [e] = []) :
    added (s.log ++ [e]) = added s.log := by
  rw [added_concat, he, List.append_nil]

theorem TakeJob.frame {s₀ : BlockingQueue τ α} (h : TakeJob t s₀ q) :
    q.running = s₀.running ∧ q.commencing = s₀.commencing ∧ q.starting = s₀.starting ∧
      added q.log = added s₀.log := by
  cases h with
  | wait => exact ⟨rfl, rfl, rfl, rfl⟩
  | quit => exact ⟨rfl, rfl, rfl, rfl⟩
  | take => exact ⟨rfl, rfl, rfl, added_record rfl⟩

/-- A worker does not touch what starts and stops the queue, and adds nothing. -/
theorem worker_frame (hstep : Step n s l q) (hl : l.worker = some t) :
    q.running = s.running ∧ q.commencing = s.commencing ∧ q.starting = s.starting ∧
      added q.log = added s.log := by
  cases hstep with
  | takeJob ht htake =>
    obtain ⟨hrunning, hcommencing, hstarting, hadded⟩ := htake.frame
    exact ⟨hrunning, hcommencing, hstarting, hadded.trans (added_record rfl)⟩
  | retake ht htake => exact htake.frame
  | wake ht => exact ⟨rfl, rfl, rfl, rfl⟩
  | invoke ht => exact ⟨rfl, rfl, rfl, added_record rfl⟩
  | skip ht => exact ⟨rfl, rfl, rfl, rfl⟩
  | finish ht => exact ⟨rfl, rfl, rfl, rfl⟩
  | addJob => cases hl
  | stop => cases hl
  | commence => cases hl
  | run => cases hl
  | start => cases hl

theorem Turn.workers_of_ne {u : τ} (h : Turn s q t l) (hu : u ≠ t) :
    q.workers u = s.workers u := by
  cases h with
  | wakes ht hq => rw [hq]
  | waits hl henters hqueue hworkers hcond => rw [hworkers, Function.update_of_ne hu]
  | takes hl henters hqueue hworkers hcond => rw [hworkers, Function.update_of_ne hu]
  | invokes ht hqueue hworkers hcond => rw [hworkers, Function.update_of_ne hu]
  | skips ht hqueue hworkers hcond => rw [hworkers, Function.update_of_ne hu]
  | finishes ht hqueue hworkers hcond => rw [hworkers, Function.update_of_ne hu]

end BlockingQueue

/-! ## What is left to do -/

/-- The jobs that the main thread has yet to add. -/
def MainPhase.left {τ α : Type*} (jobs : List α) : MainPhase τ α → List α
  | fresh | commencing => jobs
  | adding _ js => js
  | waiting | past => []

/-- How many steps the main thread has before it, counting those that an added job takes. -/
def MainPhase.effort {τ α : Type*} (threads : List τ) (jobs : List α) : MainPhase τ α → ℕ
  | fresh => 8 * jobs.length + 2 * threads.length + 3
  | commencing => 8 * jobs.length + 2 * threads.length + 2
  | adding ts js => 8 * js.length + 2 * ts.length + 1
  | waiting | past => 0

namespace QueueWorker

variable {α : Type*}

/-- The job for which the worker has yet to call `reduce`. -/
def owed : QueueWorker α → Bool → Multiset α
  | taken job, _ => job.toList
  | invoking job, false => {job}
  | invoking _, true | absent, _ | looping, _ | waiting, _ | exited, _ => 0

/-- How many steps it has before it, up to its next wait. -/
def effort : QueueWorker α → Bool → ℕ
  | taken _, _ => 5
  | invoking _, false => 4
  | invoking _, true => 2
  | looping, _ => 1
  | absent, _ | waiting, _ | exited, _ => 0

end QueueWorker

namespace ForkJoin

variable {τ α : Type*}

section Total

variable [Fintype τ]

/-- Something that each worker has, over all of them. -/
def total {M : Type*} [AddCommMonoid M] (f : QueueWorker α → Bool → M) (s : ForkJoin τ α) : M :=
  ∑ t, f (s.workers t) (s.counted t)

/-- The jobs in which `reduce` has yet to be called. -/
def pending (jobs : List α) (s : ForkJoin τ α) : Multiset α :=
  s.main.left jobs + (s.queue.reduceOption + s.total QueueWorker.owed)

/-- A bound on the steps before anybody waits. -/
def energy (threads : List τ) (jobs : List α) (s : ForkJoin τ α) : ℕ :=
  s.main.effort threads jobs + s.latch.cond.woken.card +
    (6 * s.queue.length + s.cond.woken.card + s.total QueueWorker.effort)

/-- One worker changes. -/
theorem total_replace {M : Type*} [AddCommMonoid M] [DecidableEq τ]
    (f : QueueWorker α → Bool → M) {s s' : ForkJoin τ α} {t : τ}
    (hworkers : ∀ u, u ≠ t → s'.workers u = s.workers u)
    (hcounted : ∀ u, u ≠ t → s'.counted u = s.counted u) :
    s'.total f + f (s.workers t) (s.counted t) = s.total f + f (s'.workers t) (s'.counted t) := by
  have hothers : ∑ u ∈ Finset.univ.erase t, f (s'.workers u) (s'.counted u) =
      ∑ u ∈ Finset.univ.erase t, f (s.workers u) (s.counted u) := by
    apply Finset.sum_congr rfl
    intro u hu
    rw [hworkers u (Finset.ne_of_mem_erase hu), hcounted u (Finset.ne_of_mem_erase hu)]
  rw [total, total, ← Finset.add_sum_erase _ _ (Finset.mem_univ t), hothers,
    ← Finset.add_sum_erase _ _ (Finset.mem_univ t)]
  abel

end Total

variable [DecidableEq τ] {s s' : ForkJoin τ α} {q : BlockingQueue τ α} {l : QueueStep τ α} {t u : τ}
  {threads : List τ} {jobs : List α}

theorem afterWorker_of_ne (h : ∀ u e, l ≠ .finish u e) :
    afterWorker s.counted l = s.counted := by
  cases l with
  | finish u e => exact absurd rfl (h u e)
  | _ => rfl

theorem afterWorker_other (hl : l.worker = some t) (hu : u ≠ t) :
    afterWorker s.counted l u = s.counted u := by
  cases l with
  | finish v e =>
    cases hl
    exact Function.update_of_ne hu _ _
  | _ => rfl

section Total

variable [Fintype τ] {M : Type*} [AddCommMonoid M] (f : QueueWorker α → Bool → M)

theorem total_started {k : ℕ} {m : MainPhase τ α} (ht : s.workers t = .absent) :
    total f { s with toBlockingQueue := { s.setWorker t .looping with starting := k }, main := m } +
        f .absent (s.counted t) = s.total f + f .looping (s.counted t) := by
  have hself : (s.setWorker t .looping).workers t = .looping := BlockingQueue.setWorker_self
  have hreplace : total f { s with
      toBlockingQueue := { s.setWorker t .looping with starting := k }, main := m } +
        f (s.workers t) (s.counted t) =
          s.total f + f ((s.setWorker t .looping).workers t) (s.counted t) :=
    total_replace f (fun u hu => BlockingQueue.setWorker_of_ne hu) fun _ _ => rfl
  rwa [hself, ht] at hreplace

theorem total_turn (h : BlockingQueue.Turn s.toBlockingQueue q t l) (hl : l.worker = some t) :
    total f { s with toBlockingQueue := q, counted := afterWorker s.counted l } +
        f (s.workers t) (s.counted t) =
      s.total f + f (q.workers t) (afterWorker s.counted l t) :=
  total_replace f (fun _ hu => h.workers_of_ne hu) fun _ hu => afterWorker_other hl hu

theorem total_reduced {job : α} (ht : s.workers t = .invoking job)
    (hcounted : s.counted t = false) :
    total f { s with counted := Function.update s.counted t true } + f (.invoking job) false =
      s.total f + f (.invoking job) true := by
  have hself : Function.update s.counted t true t = true := Function.update_self _ _ _
  have hreplace : total f { s with counted := Function.update s.counted t true } +
      f (s.workers t) (s.counted t) =
        s.total f + f (s.workers t) (Function.update s.counted t true t) :=
    total_replace f (fun _ _ => rfl) fun u hu => Function.update_of_ne hu _ _
  rwa [hself, ht, hcounted] at hreplace

end Total

/-! ## One step of a worker, in numbers -/

/-- A job that is taken moves from the queue to the worker. -/
theorem owed_turn (h : BlockingQueue.Turn s.toBlockingQueue q t l) (hends : s.Ends l)
    (hcounted : s.counted t = true → ∃ job, s.workers t = .invoking job) :
    (q.queue.reduceOption : Multiset α) + (q.workers t).owed (afterWorker s.counted l t) =
      s.queue.reduceOption + (s.workers t).owed (s.counted t) := by
  cases h with
  | wakes ht hq =>
    rw [hq]
    rfl
  | @waits _ c hl henters hqueue hworkers hcond =>
    rw [hqueue, hworkers, Function.update_self]
    cases henters with
    | calls ht => rw [ht]; rfl
    | retakes hw ht => rw [hw]; rfl
  | @takes _ c job hl henters hqueue hworkers hcond =>
    have hnone : (s.workers t).owed (s.counted t) = 0 := by
      cases henters with
      | calls ht => rw [ht]; rfl
      | retakes hw ht => rw [hw]; rfl
    rw [hqueue, hworkers, Function.update_self, hnone, add_zero]
    cases job with
    | none => exact add_zero _
    | some job =>
      show _ + (([job] : List α) : Multiset α) =
        ((job :: q.queue.reduceOption : List α) : Multiset α)
      rw [add_comm, Multiset.coe_add]
      rfl
  | @invokes job ht hqueue hworkers hcond =>
    have hfalse : s.counted t = false := by
      rw [Bool.eq_false_iff]
      intro htrue
      obtain ⟨job', hinvoking⟩ := hcounted htrue
      cases ht.symm.trans hinvoking
    rw [hqueue, hworkers, Function.update_self, ht]
    show _ + QueueWorker.owed (.invoking job) (s.counted t) = _
    rw [hfalse]
    rfl
  | skips ht hqueue hworkers hcond =>
    rw [hqueue, hworkers, Function.update_self, ht]
    rfl
  | @finishes job ended ht hqueue hworkers hcond =>
    obtain ⟨rfl, htrue⟩ := hends
    rw [hqueue, hworkers, Function.update_self, ht, htrue]
    rfl

/-- A step that uses something up may be any step. -/
theorem le_of_used {b : Bool} {new old : ℕ} (h : new + 1 ≤ old) :
    new + (if b then 0 else 1) ≤ old + (if b then 1 else 0) := by
  split <;> omega

/-- Each turn uses something up, but for a wake-up. -/
theorem effort_turn (h : BlockingQueue.Turn s.toBlockingQueue q t l) (hends : s.Ends l) :
    6 * q.queue.length + q.cond.woken.card + (q.workers t).effort (afterWorker s.counted l t) +
        (if (ForkStep.worker l).isWake then 0 else 1) ≤
      6 * s.queue.length + s.cond.woken.card + (s.workers t).effort (s.counted t) +
        (if (ForkStep.worker l).isWake then 1 else 0) := by
  have henters : ∀ {c}, s.Enters t c →
      (s.workers t).effort (s.counted t) + s.cond.woken.card = c.woken.card + 1 := by
    rintro c (⟨ht⟩ | ⟨hw, ht⟩)
    · rw [ht]
      exact add_comm _ _
    · rw [hw, WaitSet.card_resume ht]
      exact Nat.zero_add _
  cases h with
  | wakes ht hq =>
    have hwoken : q.cond.woken.card = s.cond.woken.card + 1 := by
      rw [hq]
      exact WaitSet.card_wake ht
    rw [hwoken, hq]
    show 6 * s.queue.length + (s.cond.woken.card + 1) +
      (s.workers t).effort (s.counted t) + 0 ≤ _ + 1
    omega
  | @waits _ c hl hent hqueue hworkers hcond =>
    apply le_of_used
    have hbefore := henters hent
    have hslept : q.cond.woken.card ≤ c.woken.card := hcond ▸ WaitSet.card_sleep_le
    rw [hqueue, hworkers, Function.update_self, QueueWorker.effort]
    omega
  | @takes _ c job hl hent hqueue hworkers hcond =>
    apply le_of_used
    have hbefore := henters hent
    have hlength : s.queue.length = q.queue.length + 1 := by
      rw [hqueue, List.length_cons]
    have hsignal : q.cond.woken.card ≤ c.woken.card + 1 := by
      rcases hcond with heq | hsignal
      · rw [heq]
        exact Nat.le_succ _
      · exact hsignal.card_woken_le
    rw [hlength, hworkers, Function.update_self, QueueWorker.effort]
    omega
  | @invokes job ht hqueue hworkers hcond =>
    apply le_of_used
    rw [hqueue, hcond, hworkers, Function.update_self, ht]
    cases afterWorker s.counted (.invoke t) t <;> simp [QueueWorker.effort]
  | skips ht hqueue hworkers hcond =>
    apply le_of_used
    rw [hqueue, hcond, hworkers, Function.update_self, ht]
    simp [QueueWorker.effort]
  | @finishes job ended ht hqueue hworkers hcond =>
    apply le_of_used
    obtain ⟨rfl, htrue⟩ := hends
    rw [hqueue, hcond, hworkers, Function.update_self, ht, htrue]
    simp [QueueWorker.effort, BlockingQueue.afterJob]

theorem counted_turn (h : BlockingQueue.Turn s.toBlockingQueue q t l) (hl : l.worker = some t)
    (hcounted : s.counted u = true → ∃ job, s.workers u = .invoking job)
    (hu : afterWorker s.counted l u = true) : ∃ job, q.workers u = .invoking job := by
  by_cases heq : u = t
  · -- worker `t` itself has called `reduce` in this job only if it stays in it
    subst heq
    have habsurd : ∀ {w : QueueWorker α}, s.workers u = w → (∀ job, w ≠ .invoking job) →
        s.counted u ≠ true := by
      intro w hw hne htrue
      obtain ⟨job, hjob⟩ := hcounted htrue
      exact hne job (hw.symm.trans hjob)
    cases h with
    | wakes ht hq =>
      obtain ⟨job, hjob⟩ := hcounted hu
      exact ⟨job, by rw [hq]; exact hjob⟩
    | waits hnot henters hqueue hworkers hcond =>
      rw [afterWorker_of_ne hnot] at hu
      cases henters with
      | calls ht => exact absurd hu (habsurd ht (by simp))
      | retakes hw ht => exact absurd hu (habsurd hw (by simp))
    | takes hnot henters hqueue hworkers hcond =>
      rw [afterWorker_of_ne hnot] at hu
      cases henters with
      | calls ht => exact absurd hu (habsurd ht (by simp))
      | retakes hw ht => exact absurd hu (habsurd hw (by simp))
    | invokes ht hqueue hworkers hcond => exact absurd hu (habsurd ht (by simp))
    | skips ht hqueue hworkers hcond => exact absurd hu (habsurd ht (by simp))
    | finishes ht hqueue hworkers hcond =>
      rw [afterWorker, Function.update_self] at hu
      cases hu
  · rw [afterWorker_other hl heq] at hu
    rw [h.workers_of_ne heq]
    exact hcounted hu

/-! ## One step -/

/-- Where the main thread is, as far as the queue and the latch show it. -/
def AtMain (threads : List τ) (s : ForkJoin τ α) : MainPhase τ α → Prop
  | .fresh => s.running = false ∧ s.commencing = 0 ∧ ¬ s.latch.cond.Waits ()
  | .commencing => s.running = false ∧ s.commencing = 1 ∧ ¬ s.latch.cond.Waits ()
  | .adding ts _ => s.running = true ∧ s.starting = ts.length ∧ ts.Nodup ∧
      (∀ t ∈ ts, s.workers t = .absent) ∧
      (∀ t ∈ threads, t ∉ ts → s.workers t ≠ .absent) ∧ ¬ s.latch.cond.Waits ()
  | .waiting => s.running = true ∧ (∀ t ∈ threads, s.workers t ≠ .absent) ∧
      s.latch.cond.Waits ()
  | .past => s.running = true ∧ s.latch.count ≤ 0 ∧ ¬ s.latch.cond.Waits ()

omit [DecidableEq τ] in
theorem AtMain.congr {m : MainPhase τ α} (h : s.AtMain threads m)
    (hrunning : s'.running = s.running) (hcommencing : s'.commencing = s.commencing)
    (hstarting : s'.starting = s.starting)
    (habsent : ∀ u, s'.workers u = .absent ↔ s.workers u = .absent)
    (hwaits : s'.latch.cond.Waits () ↔ s.latch.cond.Waits ())
    (hcount : s.latch.count ≤ 0 → s'.latch.count ≤ 0) : s'.AtMain threads m := by
  cases m with
  | past => exact ⟨hrunning.trans h.1, hcount h.2.1, mt hwaits.mp h.2.2⟩
  | _ =>
    simp only [AtMain, hrunning, hcommencing, hstarting, ne_eq, habsent, hwaits] at h ⊢
    exact h

/-- The queue is in a run of its own in which nothing stops it, every job is still to be run or was,
    the latch counts those that were, and nobody sleeps at it once they all were. -/
structure Forked [Fintype τ] (threads : List τ) (jobs : List α) (s : ForkJoin τ α) : Prop where
  reachable : (BlockingQueue.queueRuns τ α threads.length).Reachable s.toBlockingQueue
  staying : QueueLifetime.Staying s.toBlockingQueue
  counted : ∀ t, s.counted t = true → ∃ job, s.workers t = .invoking job
  shared : (jobs : Multiset α) = s.pending jobs + s.ran
  count : s.latch.count + s.ran.length = jobs.length
  added : BlockingQueue.added s.log ++ (s.main.left jobs).map some = jobs.map some
  released : s.latch.Released
  main : s.AtMain threads s.main

omit [DecidableEq τ] in
variable (τ α) in
/-- `latch()`, by a thread that is not in its wait. -/
theorem latch_loop {l : CountLatch Unit} (hout : ¬ l.cond.Waits ()) :
    (0 < l.count ∧ (l.loop ()).cond = l.cond.sleep () ∧
        (afterLatch (l.loop ()) : MainPhase τ α) = .waiting) ∨
      (l.count ≤ 0 ∧ l.loop () = l ∧ (afterLatch (l.loop ()) : MainPhase τ α) = .past) := by
  by_cases hcount : l.count > 0
  · have hloop : l.loop () = { l with cond := l.cond.sleep () } := if_pos hcount
    refine .inl ⟨hcount, by rw [hloop], ?_⟩
    rw [hloop]
    exact if_neg (Finset.insert_ne_empty _ _)
  · have hloop : l.loop () = l := if_neg hcount
    refine .inr ⟨not_lt.mp hcount, hloop, ?_⟩
    rw [hloop]
    apply if_pos
    rw [Finset.eq_empty_iff_forall_notMem]
    exact fun _ hsleep => hout (.inl hsleep)

omit [DecidableEq τ] in
theorem left_afterLatch (l : CountLatch Unit) :
    (afterLatch l : MainPhase τ α).left jobs = [] := by
  simp only [afterLatch]
  split <;> rfl

theorem loop_count (l : CountLatch Unit) : (l.loop ()).count = l.count := by
  simp only [CountLatch.loop]
  split <;> rfl

omit [DecidableEq τ] in
theorem worker_thread (hl : l.worker = some t) : l.thread = [] := by
  cases l with
  | start u => cases hl
  | _ => rfl

omit [DecidableEq τ] in
theorem effort_afterLatch (l : CountLatch Unit) :
    (afterLatch l : MainPhase τ α).effort threads jobs = 0 := by
  simp only [afterLatch]
  split <;> rfl

theorem loop_woken_le (l : CountLatch Unit) :
    (l.loop ()).cond.woken.card ≤ l.cond.woken.card := by
  simp only [CountLatch.loop]
  split
  · exact WaitSet.card_sleep_le
  · exact Nat.le_refl _

namespace Forked

variable [Fintype τ]

theorem start (threads : List τ) (jobs : List α) :
    Forked threads jobs (start jobs : ForkJoin τ α) := by
  refine ⟨.start rfl, ⟨fun _ => ⟨rfl, fun _ => rfl⟩, nofun⟩, nofun, ?_, ?_, rfl, fun _ => rfl,
    ⟨rfl, rfl, WaitSet.not_waits_empty⟩⟩
  · have hnone : (ForkJoin.start jobs : ForkJoin τ α).total QueueWorker.owed = 0 :=
      Finset.sum_eq_zero fun _ _ => rfl
    rw [pending, hnone]
    simp [ForkJoin.start, MainPhase.left, BlockingQueue.new, List.reduceOption]
  · exact add_zero _

theorem waiting (h : s.Forked threads jobs) (t : τ) (ht : t ∈ s.cond.woken) :
    s.workers t = .waiting := BlockingQueue.waiting_of_woken h.reachable ht

/-- The main thread is in the wait of the latch. -/
theorem main_waiting (h : s.Forked threads jobs) (hw : s.latch.cond.Waits ()) :
    s.main = .waiting := by
  have hmain := h.main
  cases heq : s.main with
  | fresh => rw [heq] at hmain; exact absurd hw hmain.2.2
  | commencing => rw [heq] at hmain; exact absurd hw hmain.2.2
  | adding ts js => rw [heq] at hmain; exact absurd hw hmain.2.2.2.2.2
  | waiting => rfl
  | past => rw [heq] at hmain; exact absurd hw hmain.2.2

/-- A worker that takes a step finds the queue running. -/
theorem running (h : s.Forked threads jobs) {n : ℕ} (hl : l.worker = some t)
    (hq : BlockingQueue.Step n s.toBlockingQueue l q) : s.running = true := by
  by_contra hstop
  have habsent := (h.staying.running (Bool.eq_false_iff.mpr hstop)).2 t
  have hout : ¬ s.cond.Waits t := by
    rw [(BlockingQueue.reachable_awake h.reachable).waits_iff, habsent]
    simp
  cases BlockingQueue.workerStep h.waiting hq t with
  | same hsame hstart hworker =>
    obtain rfl := hworker hl
    cases hq with
    | wake ht => exact hout (.inl ht)
  | starts hstart hold hnew =>
    rw [hstart] at hl
    cases hl
  | moves hl' hmoves => exact hmoves.ne_absent.1 habsent

/-- A step of the main thread in `latch()`. -/
theorem latched {l : CountLatch Unit} (h : s.Forked threads jobs) (hleft : s.main.left jobs = [])
    (hrunning : s.running = true) (hthere : ∀ t ∈ threads, s.workers t ≠ .absent)
    (hout : ¬ l.cond.Waits ()) (hcount : l.count = s.latch.count)
    (hreleased : (l.loop ()).Released) :
    Forked threads jobs { s with latch := l.loop (), main := afterLatch (l.loop ()) } := by
  have hshared := h.shared
  have hadded := h.added
  rw [pending, hleft] at hshared
  rw [hleft] at hadded
  refine ⟨h.reachable, h.staying, h.counted, ?_, ?_, ?_, hreleased, ?_⟩
  · rw [pending, left_afterLatch]
    exact hshared
  · show (l.loop ()).count + _ = _
    rw [loop_count, hcount]
    exact h.count
  · rw [left_afterLatch]
    exact hadded
  · rcases latch_loop τ α hout with ⟨hpos, hcond, hmain⟩ | ⟨hzero, hsame, hmain⟩
    · rw [hmain]
      refine ⟨hrunning, hthere, ?_⟩
      show (l.loop ()).cond.Waits ()
      rw [hcond, WaitSet.waits_sleep]
      exact .inl rfl
    · rw [hmain]
      show s.running = true ∧ (l.loop ()).count ≤ 0 ∧ ¬ (l.loop ()).cond.Waits ()
      rw [hsame]
      exact ⟨hrunning, hzero, hout⟩

/-- What a step of the queue leaves to its own run. -/
theorem queue_kept (h : s.Forked threads jobs)
    (hq : BlockingQueue.Step threads.length s.toBlockingQueue l q)
    (hl : QueueLifetime.Unstopped (.queue l)) :
    (BlockingQueue.queueRuns τ α threads.length).Reachable q ∧ QueueLifetime.Staying q :=
  ⟨.next l h.reachable hq, h.staying.step h.waiting hl hq⟩

theorem commence (h : s.Forked threads jobs) (hmain : s.main = .fresh)
    (hq : BlockingQueue.Step threads.length s.toBlockingQueue .commence q) :
    Forked threads jobs { s with toBlockingQueue := q, main := .commencing } := by
  obtain ⟨hreach, hstaying⟩ := h.queue_kept hq trivial
  have hshared := h.shared
  have hadded := h.added
  have hat := h.main
  rw [pending, hmain] at hshared
  rw [hmain] at hadded hat
  cases hq with
  | commence hrun =>
    refine ⟨hreach, hstaying, h.counted, hshared, h.count, hadded, h.released, ?_⟩
    obtain ⟨hrunning, hcommencing, hout⟩ := hat
    exact ⟨hrunning, congrArg (· + 1) hcommencing, hout⟩

theorem run (h : s.Forked threads jobs) (hnodup : threads.Nodup) (hmain : s.main = .commencing)
    (hq : BlockingQueue.Step threads.length s.toBlockingQueue .run q) :
    Forked threads jobs { s with toBlockingQueue := q, main := .adding threads jobs } := by
  obtain ⟨hreach, hstaying⟩ := h.queue_kept hq trivial
  have hshared := h.shared
  have hadded := h.added
  have hat := h.main
  rw [pending, hmain] at hshared
  rw [hmain] at hadded hat
  obtain ⟨hstop, -, hout⟩ := hat
  obtain ⟨hstarting, habsent⟩ := h.staying.running hstop
  cases hq with
  | run hcall =>
    refine ⟨hreach, hstaying, h.counted, hshared, h.count, ?_, h.released, ?_⟩
    · show BlockingQueue.added (s.log ++ [.commenced]) ++ _ = _
      rw [BlockingQueue.added_record rfl]
      exact hadded
    · refine ⟨rfl, ?_, hnodup, fun t _ => habsent t, fun t ht hnot => absurd ht hnot, hout⟩
      show s.starting + threads.length = threads.length
      rw [hstarting, Nat.zero_add]

theorem startThread {ts : List τ} {js : List α} (h : s.Forked threads jobs)
    (hmain : s.main = .adding (t :: ts) js)
    (hq : BlockingQueue.Step threads.length s.toBlockingQueue (.start t) q) :
    Forked threads jobs { s with toBlockingQueue := q, main := .adding ts js } := by
  obtain ⟨hreach, hstaying⟩ := h.queue_kept hq trivial
  have hshared := h.shared
  have hadded := h.added
  have hat := h.main
  rw [pending, hmain] at hshared
  rw [hmain] at hadded hat
  obtain ⟨hrunning, hlength, hnodup, habsent, hthere, hout⟩ := hat
  obtain ⟨hnotin, hnodup⟩ := List.nodup_cons.mp hnodup
  cases hq with
  | @start _ k hstart ht =>
    have hothers : ∀ u, u ≠ t → (s.setWorker t .looping).workers u = s.workers u :=
      fun u hu => BlockingQueue.setWorker_of_ne hu
    refine ⟨hreach, hstaying, fun u hu => ?_, ?_, h.count, hadded, h.released, ?_⟩
    · obtain ⟨job, hjob⟩ := h.counted u hu
      have hne : u ≠ t := by
        rintro rfl
        cases ht.symm.trans hjob
      exact ⟨job, (hothers u hne).trans hjob⟩
    · have htotal : total QueueWorker.owed
          { s with toBlockingQueue := { s.setWorker t .looping with starting := k },
                   main := .adding ts js } + 0 = s.total QueueWorker.owed + 0 :=
        total_started QueueWorker.owed ht
      rw [add_zero, add_zero] at htotal
      rw [pending, htotal]
      exact hshared
    · refine ⟨hrunning, ?_, hnodup, fun u hu => ?_, fun u hu hnot => ?_, hout⟩
      · exact Nat.succ.inj (hstart.symm.trans hlength)
      · have hne : u ≠ t := fun heq => hnotin (heq ▸ hu)
        exact (hothers u hne).trans (habsent u (List.mem_cons_of_mem _ hu))
      · show (s.setWorker t .looping).workers u ≠ .absent
        by_cases heq : u = t
        · rw [heq, BlockingQueue.setWorker_self]
          simp
        · rw [hothers u heq]
          exact hthere u hu fun hmem => (List.mem_cons.mp hmem).elim heq hnot

theorem addJob {job : α} {js : List α} (h : s.Forked threads jobs)
    (hmain : s.main = .adding [] (job :: js))
    (hq : BlockingQueue.Step threads.length s.toBlockingQueue (.addJob (some job)) q) :
    Forked threads jobs { s with toBlockingQueue := q, main := .adding [] js } := by
  obtain ⟨hreach, hstaying⟩ := h.queue_kept hq trivial
  have hshared := h.shared
  have hadded := h.added
  have hat := h.main
  rw [pending, hmain] at hshared
  rw [hmain] at hadded hat
  cases hq with
  | addJob hcond =>
    refine ⟨hreach, hstaying, h.counted, ?_, h.count, ?_, h.released, hat⟩
    · have hqueue : ((s.queue ++ [some job]).reduceOption : Multiset α) =
          {job} + (s.queue.reduceOption : Multiset α) := by
        rw [List.reduceOption_append, ← Multiset.coe_add, add_comm]
        rfl
      rw [hshared, pending]
      show ((job :: js : List α) : Multiset α) + _ + _ =
        (js : Multiset α) + (((s.queue ++ [some job]).reduceOption : Multiset α) +
          s.total QueueWorker.owed) + _
      rw [hqueue, ← Multiset.cons_coe, ← Multiset.singleton_add]
      abel
    · show BlockingQueue.added (s.log ++ [.added (some job)]) ++ js.map some = _
      rw [BlockingQueue.added_concat, List.append_assoc]
      exact hadded

theorem worker (h : s.Forked threads jobs) (hl : l.worker = some t) (hends : s.Ends l)
    (hq : BlockingQueue.Step threads.length s.toBlockingQueue l q) :
    Forked threads jobs
      { s with toBlockingQueue := q, counted := afterWorker s.counted l } := by
  have hunstopped : QueueLifetime.Unstopped (.queue l) := by
    cases l with
    | finish u ended =>
      obtain ⟨rfl, -⟩ := hends
      trivial
    | stop => cases hl
    | _ => trivial
  obtain ⟨hreach, hstaying⟩ := h.queue_kept hq hunstopped
  have hturn := BlockingQueue.turn_of_step hq hl (h.running hl hq) h.waiting
  obtain ⟨hrunning, hcommencing, hstarting, hlog⟩ := BlockingQueue.worker_frame hq hl
  have habsent : ∀ u, q.workers u = .absent ↔ s.workers u = .absent := by
    intro u
    rw [(BlockingQueue.workerStep h.waiting hq u).absent_iff, worker_thread hl]
    exact and_iff_left List.not_mem_nil
  refine ⟨hreach, hstaying, fun u hu => ?_, ?_, h.count, ?_, h.released, ?_⟩
  · exact counted_turn hturn hl (h.counted u) hu
  · have htotal := total_turn QueueWorker.owed hturn hl
    have howed := owed_turn hturn hends (h.counted t)
    have hmoved : (q.queue.reduceOption : Multiset α) +
        total QueueWorker.owed
          { s with toBlockingQueue := q, counted := afterWorker s.counted l } =
        s.queue.reduceOption + s.total QueueWorker.owed := by
      apply add_right_cancel (b := (s.workers t).owed (s.counted t))
      rw [add_assoc, htotal, add_left_comm, howed]
      abel
    rw [pending, hmoved]
    exact h.shared
  · show BlockingQueue.added q.log ++ _ = _
    rw [hlog]
    exact h.added
  · have hat := h.main
    exact hat.congr hrunning hcommencing hstarting habsent Iff.rfl id

theorem reduce {job : α} {l : CountLatch Unit} (h : s.Forked threads jobs)
    (ht : s.workers t = .invoking job) (hcounted : s.counted t = false)
    (hl : CountLatch.Step s.latch (.reduce 1) l) :
    Forked threads jobs
      { s with latch := l, counted := Function.update s.counted t true,
               ran := s.ran ++ [job] } := by
  have hreleased : l.Released := by
    refine CountLatch.released_step (l := .reduce 1) h.released (fun _ => ?_) hl
    exact Finset.card_le_one_of_subsingleton _
  cases hl with
  | reduce hval hcond =>
    have hown : Function.update s.counted t true t = true := Function.update_self _ _ _
    have hothers : ∀ u, u ≠ t → Function.update s.counted t true u = s.counted u :=
      fun u hu => Function.update_of_ne hu _ _
    refine ⟨h.reachable, h.staying, fun u hu => ?_, ?_, ?_, h.added, hreleased, ?_⟩
    · by_cases heq : u = t
      · exact ⟨job, heq ▸ ht⟩
      · exact h.counted u ((hothers u heq).symm.trans hu)
    · have htotal : total QueueWorker.owed { s with counted := Function.update s.counted t true } +
          {job} = s.total QueueWorker.owed :=
        (total_reduced QueueWorker.owed ht hcounted).trans (add_zero _)
      have hshared := h.shared
      rw [pending, ← htotal] at hshared
      rw [hshared]
      show _ = (s.main.left jobs : Multiset α) + (s.queue.reduceOption +
        total QueueWorker.owed { s with counted := Function.update s.counted t true }) +
          ((s.ran ++ [job] : List α) : Multiset α)
      rw [← Multiset.coe_add, Multiset.coe_singleton]
      abel
    · show s.latch.count - 1 + (s.ran ++ [job]).length = _
      have hcount := h.count
      rw [List.length_append, List.length_singleton]
      omega
    · have hat := h.main
      refine hat.congr rfl rfl rfl (fun _ => Iff.rfl) hcond.waits fun hzero => ?_
      show s.latch.count - 1 ≤ 0
      omega

theorem step (h : s.Forked threads jobs) (hnodup : threads.Nodup) {l : ForkStep τ α}
    (hstep : Step threads jobs s l s') : s'.Forked threads jobs := by
  cases hstep with
  | commence hmain hq => exact h.commence hmain hq
  | run hmain hq => exact h.run hnodup hmain hq
  | start hmain hq => exact h.startThread hmain hq
  | addJob hmain hq => exact h.addJob hmain hq
  | @latch l hmain hl =>
    have hat := h.main
    rw [hmain] at hat
    obtain ⟨hrunning, -, -, -, hthere, hout⟩ := hat
    have hreleased := CountLatch.released_step (l := .latch ()) h.released trivial hl
    cases hl with
    | latch _ =>
      exact h.latched (by rw [hmain]; rfl) hrunning (fun t ht => hthere t ht List.not_mem_nil) hout
        rfl hreleased
  | @retake l hl =>
    have hreleased := CountLatch.released_step (l := .retake ()) h.released trivial hl
    cases hl with
    | retake ht =>
      have hat := h.main
      have hmain := h.main_waiting (.inr ht)
      rw [hmain] at hat
      refine h.latched (by rw [hmain]; rfl) hat.1 hat.2.1 ?_ rfl hreleased
      rw [WaitSet.waits_resume ht]
      exact fun hself => hself.1 rfl
  | @wakeMain l hl =>
    have hreleased := CountLatch.released_step (l := .wake ()) h.released trivial hl
    cases hl with
    | wake ht =>
      have hat := h.main
      exact ⟨h.reachable, h.staying, h.counted, h.shared, h.count, h.added, hreleased,
        hat.congr rfl rfl rfl (fun _ => Iff.rfl) (WaitSet.waits_wake (.inl ht)) id⟩
  | worker hl hends hq => exact h.worker hl hends hq
  | reduce ht hcounted hl => exact h.reduce ht hcounted hl

/-! ## How many steps there are -/

omit [DecidableEq τ] in
/-- What the loop of `latch()` leaves: the main thread waits, or is past it. -/
theorem energy_latched (threads : List τ) (jobs : List α) (s : ForkJoin τ α) (l : CountLatch Unit) :
    energy threads jobs { s with latch := l.loop (), main := afterLatch (l.loop ()) } ≤
      l.cond.woken.card +
        (6 * s.queue.length + s.cond.woken.card + s.total QueueWorker.effort) := by
  have hwoken := loop_woken_le l
  show (afterLatch (l.loop ()) : MainPhase τ α).effort threads jobs +
    (l.loop ()).cond.woken.card +
      (6 * s.queue.length + s.cond.woken.card + s.total QueueWorker.effort) ≤ _
  rw [effort_afterLatch, Nat.zero_add]
  exact Nat.add_le_add_right hwoken _

/-- A step uses something up, and a wake-up adds one at most. -/
theorem energy_step (h : s.Forked threads jobs) {l : ForkStep τ α}
    (hstep : Step threads jobs s l s') :
    s'.energy threads jobs + (if l.isWake then 0 else 1) ≤
      s.energy threads jobs + (if l.isWake then 1 else 0) := by
  cases hstep with
  | commence hmain hq =>
    apply le_of_used
    cases hq with
    | commence hrun =>
      simp only [energy, hmain, MainPhase.effort, total]
      omega
  | run hmain hq =>
    apply le_of_used
    cases hq with
    | run hcall =>
      simp only [energy, hmain, MainPhase.effort, total, BlockingQueue.record]
      omega
  | @start q t ts js hmain hq =>
    apply le_of_used
    cases hq with
    | @start _ k hstart ht =>
      have htotal : total QueueWorker.effort
          { s with toBlockingQueue := { s.setWorker t .looping with starting := k },
                   main := .adding ts js } = s.total QueueWorker.effort + 1 :=
        total_started QueueWorker.effort ht
      simp only [energy, hmain, MainPhase.effort, List.length_cons]
      rw [htotal]
      show 8 * js.length + 2 * ts.length + 1 + _ +
          (6 * s.queue.length + s.cond.woken.card + _) + 1 ≤
        8 * js.length + 2 * (ts.length + 1) + 1 + _ +
          (6 * s.queue.length + s.cond.woken.card + _)
      omega
  | addJob hmain hq =>
    apply le_of_used
    cases hq with
    | addJob hcond =>
      have hwoken := hcond.card_woken_le
      simp only [energy, hmain, MainPhase.effort, total, BlockingQueue.record, List.length_cons,
        List.length_append, List.length_nil]
      omega
  | @latch l hmain hl =>
    apply le_of_used
    cases hl with
    | latch ht =>
      have hlatched := energy_latched threads jobs s s.latch
      refine (Nat.succ_le_succ hlatched).trans ?_
      simp only [energy, hmain, MainPhase.effort, List.length_nil]
      omega
  | @retake l hl =>
    apply le_of_used
    cases hl with
    | retake ht =>
      have hlatched := energy_latched threads jobs s ⟨s.latch.count, s.latch.cond.resume ()⟩
      have hresumed : (s.latch.cond.resume ()).woken.card + 1 = s.latch.cond.woken.card :=
        WaitSet.card_resume ht
      refine (Nat.succ_le_succ hlatched).trans ?_
      simp only [energy, h.main_waiting (.inr ht), MainPhase.effort]
      omega
  | @wakeMain l hl =>
    cases hl with
    | wake ht =>
      have hwoken := WaitSet.card_wake ht
      simp only [energy, ForkStep.isWake, total, if_true, hwoken]
      omega
  | @worker q t l hl hends hq =>
    have hturn := BlockingQueue.turn_of_step hq hl (h.running hl hq) h.waiting
    have heffort := effort_turn hturn hends
    have htotal := total_turn QueueWorker.effort hturn hl
    simp only [energy]
    omega
  | @reduce t job l ht hcounted hl =>
    apply le_of_used
    cases hl with
    | @reduce _ cond hval hcond =>
      have hwoken : cond.woken.card ≤ _ := hcond.card_woken_le
      have htotal :
          total QueueWorker.effort { s with counted := Function.update s.counted t true } + 4 =
            s.total QueueWorker.effort + 2 := total_reduced QueueWorker.effort ht hcounted
      show s.main.effort threads jobs + cond.woken.card + (6 * s.queue.length + s.cond.woken.card +
        total QueueWorker.effort { s with counted := Function.update s.counted t true }) + 1 ≤ _
      rw [energy]
      omega

/-! ## Somebody can go on -/

/-- A worker that was started and does not sleep. -/
theorem awake_step (h : s.Forked threads jobs) (hrunning : s.running = true)
    (habsent : s.workers t ≠ .absent) (hawake : t ∉ s.cond.sleeping) :
    ∃ l s', l.isWake = false ∧ Step threads jobs s l s' := by
  have htake : ∀ s₀ : BlockingQueue τ α, s₀.running = true → ∃ q, BlockingQueue.TakeJob t s₀ q := by
    intro s₀ hrun
    cases hqueue : s₀.queue with
    | nil => exact ⟨_, .wait hqueue hrun⟩
    | cons job rest =>
      obtain ⟨cond, hcond⟩ := s₀.cond.exists_signal
      by_cases hrest : rest = []
      · have hkept : if rest = [] then s₀.cond = s₀.cond else Condition.Notify s₀.cond s₀.cond := by
          rw [if_pos hrest]
        exact ⟨_, .take hqueue hrun hkept⟩
      · exact ⟨_, .take hqueue hrun (by rwa [if_neg hrest])⟩
  cases hw : s.workers t with
  | absent => exact absurd hw habsent
  | looping =>
    obtain ⟨q, hq⟩ := htake (s.record (.called t)) hrunning
    exact ⟨_, _, rfl, .worker (l := .takeJob t) rfl trivial (.takeJob hw hq)⟩
  | waiting =>
    have hwoken : t ∈ s.cond.woken := by
      have hwaits := ((BlockingQueue.reachable_awake h.reachable).waits_iff t).mpr hw
      exact hwaits.resolve_left hawake
    obtain ⟨q, hq⟩ := htake { s.toBlockingQueue with cond := s.cond.resume t } hrunning
    exact ⟨_, _, rfl, .worker (l := .retake t) rfl trivial (.retake hwoken hq)⟩
  | taken job =>
    cases job with
    | none => exact ⟨_, _, rfl, .worker (l := .skip t) rfl trivial (.skip hw)⟩
    | some job => exact ⟨_, _, rfl, .worker (l := .invoke t) rfl trivial (.invoke hw)⟩
  | invoking job =>
    cases hcounted : s.counted t with
    | false =>
      obtain ⟨cond, hcond⟩ := s.latch.cond.exists_signal
      exact ⟨_, _, rfl, .reduce hw hcounted (.reduce Int.one_pos hcond)⟩
    | true => exact ⟨_, _, rfl, .worker (l := .finish t .returns) rfl ⟨rfl, hcounted⟩ (.finish hw)⟩
  | exited => exact absurd hw (h.staying.stays t)

/-- With every worker that was started asleep, all jobs were run. -/
theorem ran_of_asleep (h : s.Forked threads jobs) (hleft : s.main.left jobs = [])
    (hthere : ∃ t, s.workers t ≠ .absent)
    (hasleep : ∀ t, s.workers t ≠ .absent → t ∈ s.cond.sleeping) : s.latch.count = 0 := by
  have hawake := BlockingQueue.reachable_awake h.reachable
  have hwaiting : ∀ t ∈ s.cond.sleeping, s.workers t = .waiting :=
    fun t ht => (hawake.waits_iff t).mp (.inl ht)
  have hqueue : s.queue = [] := by
    obtain ⟨t, ht⟩ := hthere
    -- the queue is no longer than the woken workers are many, and all of them sleep
    have hle : s.queue.length ≤ s.cond.woken.card :=
      hawake.covers.resolve_left (Finset.ne_empty_of_mem (hasleep t ht))
    have hwoken : s.cond.woken = ∅ := by
      rw [Finset.eq_empty_iff_forall_notMem]
      intro u hu
      have hw := h.waiting u hu
      exact Finset.disjoint_left.mp s.cond.disjoint (hasleep u (by rw [hw]; simp)) hu
    rw [hwoken, Finset.card_empty] at hle
    exact List.eq_nil_of_length_eq_zero (Nat.le_zero.mp hle)
  have htotal : s.total QueueWorker.owed = 0 := by
    apply Finset.sum_eq_zero
    intro t _
    by_cases habsent : s.workers t = .absent
    · rw [habsent]
      rfl
    · rw [hwaiting t (hasleep t habsent)]
      rfl
  have hshared := h.shared
  rw [pending, hleft, hqueue, htotal] at hshared
  have hlength := congrArg Multiset.card hshared
  simp only [List.reduceOption_nil, Multiset.coe_nil, add_zero, zero_add, Multiset.coe_card]
    at hlength
  have hcount := h.count
  omega

theorem progress (h : s.Forked threads jobs) (hne : threads ≠ []) (hmain : s.main ≠ .past) :
    ∃ l s', l.isWake = false ∧ Step threads jobs s l s' := by
  have hat := h.main
  cases heq : s.main with
  | fresh =>
    rw [heq] at hat
    exact ⟨_, _, rfl, .commence heq (.commence hat.1)⟩
  | commencing =>
    rw [heq] at hat
    exact ⟨_, _, rfl, .run heq (.run hat.2.1)⟩
  | adding ts js =>
    rw [heq] at hat
    obtain ⟨hrunning, hlength, hnodup, habsent, -, hout⟩ := hat
    cases ts with
    | cons t ts =>
      exact ⟨_, _, rfl, .start heq (.start hlength (habsent t List.mem_cons_self))⟩
    | nil =>
      cases js with
      | cons job js =>
        obtain ⟨cond, hcond⟩ := s.cond.exists_signal
        exact ⟨_, _, rfl, .addJob heq (.addJob hcond)⟩
      | nil => exact ⟨_, _, rfl, .latch heq (.latch hout)⟩
  | past => exact absurd heq hmain
  | waiting =>
    rw [heq] at hat
    obtain ⟨hrunning, hthere, hwaits⟩ := hat
    by_cases hcount : s.latch.count ≤ 0
    · have hwoken : () ∈ s.latch.cond.woken := by
        refine hwaits.resolve_left fun hsleep => ?_
        rw [h.released hcount] at hsleep
        cases hsleep
      exact ⟨_, _, rfl, .retake (.retake hwoken)⟩
    · -- the latch waits for a job, which is in the queue or with a worker
      by_contra hstuck
      have hasleep : ∀ t, s.workers t ≠ .absent → t ∈ s.cond.sleeping := by
        intro t ht
        by_contra hawake
        exact hstuck (h.awake_step hrunning ht hawake)
      obtain ⟨t, ts, rfl⟩ := List.exists_cons_of_ne_nil hne
      have hzero := h.ran_of_asleep (by rw [heq]; rfl) ⟨t, hthere t List.mem_cons_self⟩ hasleep
      exact hcount hzero.le

/-- Past the latch every job has been run. -/
theorem ran_of_past (h : s.Forked threads jobs) (hmain : s.main = .past) :
    s.queue = [] ∧ s.ran.Perm jobs ∧ BlockingQueue.returned s.log = jobs.map some := by
  have hat := h.main
  have hadded := h.added
  have hshared := h.shared
  rw [hmain] at hat hadded
  rw [MainPhase.left, List.map_nil, List.append_nil] at hadded
  have hcard := congrArg Multiset.card hshared
  rw [Multiset.card_add, Multiset.coe_card, Multiset.coe_card] at hcard
  have hcount := h.count
  -- the latch is at zero, so as many jobs were run as there are
  have hnone : s.pending jobs = 0 := by
    rw [← Multiset.card_eq_zero]
    have hdown := hat.2.1
    omega
  have hconserved := (BlockingQueue.reachable_recorded h.reachable).conserved
  -- what is in the queue was added, so it is a job, and then it is pending
  have hqueue : s.queue = [] := by
    rw [List.eq_nil_iff_forall_not_mem]
    intro x hx
    have hmem : x ∈ jobs.map some := by
      rw [← hadded, hconserved]
      exact List.mem_append_right _ hx
    obtain ⟨job, -, rfl⟩ := List.mem_map.mp hmem
    have hin : job ∈ s.pending jobs := by
      rw [pending, Multiset.mem_add, Multiset.mem_add, Multiset.mem_coe, Multiset.mem_coe]
      exact .inr (.inl (List.reduceOption_mem_iff.mpr hx))
    rw [hnone] at hin
    exact Multiset.notMem_zero job hin
  rw [hqueue, List.append_nil] at hconserved
  rw [hnone, zero_add] at hshared
  exact ⟨hqueue, (Multiset.coe_eq_coe.mp hshared).symm, hconserved.symm.trans hadded⟩

end Forked

/-! ## Whole runs -/

section Runs

variable [Fintype τ] {ls : List (ForkStep τ α)}

theorem forked_run (hnodup : threads.Nodup) (h : s.Forked threads jobs)
    (hrun : (forkRuns threads jobs).Run s ls s') :
    s'.Forked threads jobs ∧ s'.energy threads jobs + ls.countP (fun l => !l.isWake) ≤
      s.energy threads jobs + ls.countP ForkStep.isWake := by
  induction hrun with
  | nil s => exact ⟨h, le_rfl⟩
  | @cons s u s' l ls hstep _ ih =>
    obtain ⟨hforked, hle⟩ := ih (h.step hnodup hstep)
    have henergy := h.energy_step hstep
    refine ⟨hforked, ?_⟩
    rw [List.countP_cons, List.countP_cons]
    cases hl : l.isWake with
    | true =>
      simp only [hl, Bool.not_true, Bool.false_eq_true, if_true, if_false] at henergy ⊢
      omega
    | false =>
      simp only [hl, Bool.not_false, Bool.false_eq_true, if_true, if_false] at henergy ⊢
      omega

omit [Fintype τ] in
theorem run_step {l : ForkStep τ α} (h : (forkRuns threads jobs).Run s ls s')
    {s'' : ForkJoin τ α} (hstep : Step threads jobs s' l s'') :
    (forkRuns threads jobs).Run s (ls ++ [l]) s'' :=
  h.append (.cons hstep (.nil _))

end Runs

/-- In every run of a main thread that starts a queue of at least one worker, adds jobs that each
    call `reduce` once, and calls `latch()`: no job is run twice; once the main thread is past the
    latch all of them were, and were taken from the queue in the order in which they were added;
    before that somebody can take a step other than to wake by itself; and the number of such steps
    is bounded by the numbers of jobs, of workers and of wake-ups. -/
theorem latched_of_run (τ α : Type*) [Fintype τ] [DecidableEq τ] (threads : List τ)
    (hnodup : threads.Nodup) (hne : threads ≠ []) (jobs : List α) (s : ForkJoin τ α)
    (ls : List (ForkStep τ α)) (h : (forkRuns threads jobs).Run (start jobs) ls s) :
    (∃ rest, (s.ran ++ rest).Perm jobs) ∧
      (s.main = .past → s.queue = [] ∧ s.ran.Perm jobs ∧
        BlockingQueue.returned s.log = jobs.map some) ∧
      (s.main ≠ .past → ∃ l s', l.isWake = false ∧ Step threads jobs s l s') ∧
      ls.countP (fun l => !l.isWake) ≤
        8 * jobs.length + 2 * threads.length + 3 + ls.countP ForkStep.isWake := by
  obtain ⟨hforked, hle⟩ := forked_run hnodup (.start threads jobs) h
  refine ⟨?_, hforked.ran_of_past, hforked.progress hne, ?_⟩
  · refine ⟨(s.pending jobs).toList, ?_⟩
    rw [← Multiset.coe_eq_coe, ← Multiset.coe_add, Multiset.coe_toList, add_comm]
    exact hforked.shared.symm
  · have hstart : energy threads jobs (start jobs : ForkJoin τ α) =
        8 * jobs.length + 2 * threads.length + 3 := by
      have hidle : (start jobs : ForkJoin τ α).total QueueWorker.effort = 0 :=
        Finset.sum_eq_zero fun _ _ => rfl
      rw [energy, hidle]
      rfl
    omega

/-- One worker and one job; the main thread is in the latch when the worker calls `reduce`. -/
theorem latched_of_run_one : ∃ (s : ForkJoin Unit Unit) (ls : List (ForkStep Unit Unit)),
    s.main = .past ∧ ls.length = 9 ∧ s.queue = [] ∧ s.ran.Perm [()] ∧
      BlockingQueue.returned s.log = [some ()] ∧
      ls.countP (fun l => !l.isWake) ≤ 13 + ls.countP ForkStep.isWake := by
  have hnew : (forkRuns [()] [()]).Run (start [()]) [] (start [()]) := .nil _
  have hcommence := run_step hnew (.commence rfl (.commence rfl))
  have hrun := run_step hcommence (.run rfl (.run rfl))
  have hstart := run_step hrun (.start rfl (.start (t := ()) rfl rfl))
  have hadd := run_step hstart (.addJob rfl (.addJob (.lost rfl)))
  have hlatch := run_step hadd (.latch rfl (.latch WaitSet.not_waits_empty))
  have htake := run_step hlatch (.worker (l := .takeJob ()) rfl trivial
    (.takeJob rfl (.take rfl rfl rfl)))
  have hinvoke := run_step htake (.worker (l := .invoke ()) rfl trivial (.invoke rfl))
  have hreduce := run_step hinvoke (.reduce (t := ()) rfl rfl
    (.reduce Int.one_pos (.wakes (Finset.mem_singleton_self ()))))
  have hpast := run_step hreduce (.retake (.retake (Finset.mem_insert_self () _)))
  obtain ⟨-, hran, -, hcount⟩ :=
    latched_of_run Unit Unit [()] (List.nodup_singleton ()) (List.cons_ne_nil _ _) [()] _ _ hpast
  obtain ⟨hqueue, hperm, hreturned⟩ := hran rfl
  exact ⟨_, _, rfl, rfl, hqueue, hperm, hreturned, hcount⟩

end ForkJoin

end Codechiev
