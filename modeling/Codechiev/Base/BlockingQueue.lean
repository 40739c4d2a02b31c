import Codechiev.Base.Condition
import Mathlib.Logic.Function.Basic

/-!
# `base::BlockingQueue`

Jobs are added by any thread and taken by the worker threads that `commence` starts. `addJob`,
`stop` and the parts of `takeJob` between its waits hold the mutex, and each is one step;
`commence` tests and sets `running_` without it. A `boost::function` may be empty, so a job is an
`Option`. What jobs do besides is their own, but they may call `addJob` and `stop`, as any other
thread may.

Left out are the runs in which a `commence` after a `stop` sets `running_` between the two tests of
it in `takeJob`: a worker that found the queue stopped and empty then leaves with an empty job.

The log records what happened in which order. It is read by the properties only.
-/

namespace Codechiev

/-- How far a worker is in `runInThread`: not started, before `takeJob`, in the wait of `takeJob`,
    past `takeJob` with what it returned, in the job, or at its end. -/
inductive QueueWorker (α : Type*) where
  | absent
  | looping
  | waiting
  | taken (job : Option α)
  | invoking (job : α)
  | exited

/-- What happened: `addJob`, a call of `takeJob` and its return, the start of a job, a `stop` that
    found the queue running, and a `commence` that found it stopped. -/
inductive QueueEvent (τ α : Type*) where
  | added (job : Option α)
  | called (t : τ)
  | returned (t : τ) (job : Option α)
  | invoked (t : τ) (job : α)
  | stopped
  | commenced

/-- How a job ends: it returns, or throws a `std::exception`, which may be a `QueueBreak`. -/
inductive JobEnd where
  | returns
  | throws
  | breaks

/-- `BlockingQueue<ThreadNum>`, with its workers, the calls of `commence` that are past the test of
    `running_`, and the threads that they still have to start. -/
structure BlockingQueue (τ α : Type*) where
  queue : List (Option α)
  running : Bool
  cond : Condition τ
  workers : τ → QueueWorker α
  commencing : ℕ
  starting : ℕ
  log : List (QueueEvent τ α)

/-- A step of the worker that is named, or of any thread. -/
inductive QueueStep (τ α : Type*) where
  | addJob (job : Option α)
  | stop
  | commence
  | run
  | start (t : τ)
  | takeJob (t : τ)
  | retake (t : τ)
  | wake (t : τ)
  | invoke (t : τ)
  | skip (t : τ)
  | finish (t : τ) (ended : JobEnd)

namespace BlockingQueue

variable {τ α : Type*}

/-- The constructor. -/
def new (τ α : Type*) : BlockingQueue τ α :=
  { queue := [], running := false, cond := .empty, workers := fun _ => .absent, commencing := 0,
    starting := 0, log := [] }

def record (s : BlockingQueue τ α) (e : QueueEvent τ α) : BlockingQueue τ α :=
  { s with log := s.log ++ [e] }

/-- `stop()`. -/
def stop [DecidableEq τ] (s : BlockingQueue τ α) : BlockingQueue τ α :=
  if s.running then
    { s with running := false, cond := Condition.notifyall s.cond }.record .stopped
  else s

/-- Where the worker is after its job ended. -/
def afterJob : JobEnd → QueueWorker α
  | .returns | .throws => .looping
  | .breaks => .exited

section Steps

variable [DecidableEq τ]

def setWorker (s : BlockingQueue τ α) (t : τ) (pc : QueueWorker α) : BlockingQueue τ α :=
  { s with workers := Function.update s.workers t pc }

/-- `takeJob` of worker `t`, with the mutex held, from the test of its loop to the next wait, the
    `throw` or the return. -/
inductive TakeJob (t : τ) (s : BlockingQueue τ α) : BlockingQueue τ α → Prop where
  | wait (hqueue : s.queue = []) (hrun : s.running = true) :
      TakeJob t s { s.setWorker t .waiting with cond := Condition.wait s.cond t }
  | quit (hrun : s.running = false) : TakeJob t s (s.setWorker t .exited)
  | take {job : Option α} {rest : List (Option α)} {cond : Condition τ}
      (hqueue : s.queue = job :: rest) (hrun : s.running = true)
      (hcond : if rest = [] then cond = s.cond else Condition.Notify s.cond cond) :
      TakeJob t s ({ s.setWorker t (.taken job) with queue := rest, cond := cond }.record
        (.returned t job))

/-- The steps. -/
inductive Step (ThreadNum : ℕ) :
    BlockingQueue τ α → QueueStep τ α → BlockingQueue τ α → Prop where
  | addJob {s : BlockingQueue τ α} {job : Option α} {cond : Condition τ}
      (hcond : Condition.Notify s.cond cond) :
      Step ThreadNum s (.addJob job)
        ({ s with queue := s.queue ++ [job], cond := cond }.record (.added job))
  | stop {s : BlockingQueue τ α} : Step ThreadNum s .stop s.stop
  | commence {s : BlockingQueue τ α} (hrun : s.running = false) :
      Step ThreadNum s .commence { s with commencing := s.commencing + 1 }
  | run {s : BlockingQueue τ α} {n : ℕ} (hcall : s.commencing = n + 1) :
      Step ThreadNum s .run
        ({ s with running := true, commencing := n, starting := s.starting + ThreadNum }.record
          .commenced)
  | start {s : BlockingQueue τ α} {t : τ} {n : ℕ} (hstart : s.starting = n + 1)
      (ht : s.workers t = .absent) :
      Step ThreadNum s (.start t) { s.setWorker t .looping with starting := n }
  | takeJob {s s' : BlockingQueue τ α} {t : τ} (ht : s.workers t = .looping)
      (htake : TakeJob t (s.record (.called t)) s') : Step ThreadNum s (.takeJob t) s'
  | retake {s s' : BlockingQueue τ α} {t : τ} (ht : t ∈ s.cond.woken)
      (htake : TakeJob t { s with cond := s.cond.resume t } s') : Step ThreadNum s (.retake t) s'
  | wake {s : BlockingQueue τ α} {t : τ} (ht : t ∈ s.cond.sleeping) :
      Step ThreadNum s (.wake t) { s with cond := s.cond.wake t }
  | invoke {s : BlockingQueue τ α} {t : τ} {job : α} (ht : s.workers t = .taken (some job)) :
      Step ThreadNum s (.invoke t) ((s.setWorker t (.invoking job)).record (.invoked t job))
  | skip {s : BlockingQueue τ α} {t : τ} (ht : s.workers t = .taken none) :
      Step ThreadNum s (.skip t) (s.setWorker t .looping)
  | finish {s : BlockingQueue τ α} {t : τ} {job : α} {ended : JobEnd}
      (ht : s.workers t = .invoking job) :
      Step ThreadNum s (.finish t ended) (s.setWorker t (afterJob ended))

/-- The runs of a queue from its construction on. -/
def queueRuns (τ α : Type*) [DecidableEq τ] (ThreadNum : ℕ) :
    LabelledSystem (BlockingQueue τ α) (QueueStep τ α) where
  init s := s = new τ α
  step := Step ThreadNum

end Steps

/-! ## What the log says -/

/-- The jobs added, in order. -/
def added (log : List (QueueEvent τ α)) : List (Option α) :=
  log.filterMap fun e => match e with
    | .added job => some job
    | _ => none

/-- The jobs that `takeJob` returned, in order. -/
def returned (log : List (QueueEvent τ α)) : List (Option α) :=
  log.filterMap fun e => match e with
    | .returned _ job => some job
    | _ => none

/-- The last `stop` that took effect was not followed by a `commence`. -/
def stoppedAfter (log : List (QueueEvent τ α)) : Bool :=
  log.foldl (fun b e => match e with
    | .stopped => true
    | .commenced => false
    | _ => b) false

/-- `takeJob` returns nothing between a `stop` that took effect and the next `commence`. -/
def StopRespected (log : List (QueueEvent τ α)) : Prop :=
  ∀ pre t job post, log = pre ++ .returned t job :: post → stoppedAfter pre = false

/-- What worker `t` did. -/
def byWorker [DecidableEq τ] (t : τ) (log : List (QueueEvent τ α)) : List (QueueEvent τ α) :=
  log.filter fun e => match e with
    | .called u | .returned u _ | .invoked u _ => u = t
    | _ => false

/-- A turn of `runInThread` that takes the given job. A non-empty job is invoked. -/
def turn (t : τ) : Option α → List (QueueEvent τ α)
  | some job => [.called t, .returned t (some job), .invoked t job]
  | none => [.called t, .returned t none]

/-- The part of a turn that a worker has behind it. The last call of `takeJob` may have thrown. -/
def Underway (t : τ) : QueueWorker α → List (QueueEvent τ α) → Prop
  | .waiting, es => es = [.called t]
  | .taken job, es => es = [.called t, .returned t job]
  | .exited, es => es = [] ∨ es = [.called t]
  | _, es => es = []

/-- What worker `t` did are whole turns, and the one it is in. -/
def Served [DecidableEq τ] (s : BlockingQueue τ α) (t : τ) : Prop :=
  ∃ (jobs : List (Option α)) (es : List (QueueEvent τ α)),
    byWorker t s.log = jobs.flatMap (turn t) ++ es ∧ Underway t (s.workers t) es

variable [DecidableEq τ] {s s' : BlockingQueue τ α} {t u : τ} {pc : QueueWorker α} {n : ℕ}
  {l : QueueStep τ α} {log : List (QueueEvent τ α)} {e : QueueEvent τ α}

@[simp] theorem setWorker_self : (s.setWorker t pc).workers t = pc := Function.update_self _ _ _

theorem setWorker_of_ne (h : u ≠ t) : (s.setWorker t pc).workers u = s.workers u :=
  Function.update_of_ne h _ _

/-! ## No lost wake-up -/

/-- The threads inside the wait are the workers that wait, there are enough woken ones for the jobs
    if any sleeps, and none sleeps once the queue is stopped. -/
structure Awake (s : BlockingQueue τ α) : Prop where
  waits_iff : ∀ t, s.cond.Waits t ↔ s.workers t = .waiting
  covers : s.cond.Covers s.queue.length
  stopped : s.running = false → s.cond.sleeping = ∅

namespace Awake

omit [DecidableEq τ] in
theorem new : (new τ α).Awake :=
  ⟨fun t => by simp [BlockingQueue.new], .inl rfl, fun _ => rfl⟩

/-- A worker outside the wait moves on, and not into the wait. -/
theorem setWorker (h : s.Awake) (ht : s.workers t ≠ .waiting) (hpc : pc ≠ .waiting) :
    (s.setWorker t pc).Awake := by
  refine ⟨fun u => ?_, h.covers, h.stopped⟩
  show s.cond.Waits u ↔ _
  by_cases hu : u = t
  · subst hu
    rw [setWorker_self, h.waits_iff]
    exact iff_of_false ht hpc
  · rw [setWorker_of_ne hu]
    exact h.waits_iff u

/-- A worker that holds the mutex, and so is not among the waiting threads, runs the loop of
    `takeJob`. There is one woken thread less than `Awake` asks for, which may be this one. -/
theorem takeJob (hwaits : ∀ u, u ≠ t → (s.cond.Waits u ↔ s.workers u = .waiting))
    (ht : ¬ s.cond.Waits t) (hcovers : s.cond.Covers (s.queue.length - 1))
    (hstopped : s.running = false → s.cond.sleeping = ∅) (h : TakeJob t s s') : s'.Awake := by
  have hset : ∀ {cond : Condition τ} {pc : QueueWorker α}, pc ≠ .waiting →
      (∀ u, cond.Waits u ↔ s.cond.Waits u) →
      ∀ u, cond.Waits u ↔ (s.setWorker t pc).workers u = .waiting := by
    intro cond pc hpc hsame u
    rw [hsame]
    by_cases hu : u = t
    · subst hu
      rw [setWorker_self]
      exact iff_of_false ht hpc
    · rw [setWorker_of_ne hu]
      exact hwaits u hu
  cases h with
  | wait hqueue hrun =>
    refine ⟨fun u => ?_, ?_, fun hstop => ?_⟩
    · show (WaitSet.sleep s.cond t).Waits u ↔ (s.setWorker t .waiting).workers u = .waiting
      rw [WaitSet.waits_sleep]
      by_cases hu : u = t
      · subst hu
        rw [setWorker_self]
        exact iff_of_true (.inl rfl) rfl
      · rw [setWorker_of_ne hu, ← hwaits u hu]
        exact or_iff_right hu
    · show (WaitSet.sleep s.cond t).Covers s.queue.length
      rw [hqueue]
      exact WaitSet.covers_zero
    · cases hrun.symm.trans hstop
  | quit hrun =>
    exact ⟨hset (by simp) fun _ => Iff.rfl, .inl (hstopped hrun), hstopped⟩
  | @take job rest cond hqueue hrun hcond =>
    rw [hqueue, List.length_cons, Nat.add_sub_cancel] at hcovers
    refine ⟨?_, ?_, fun hstop => ?_⟩
    · apply hset (by simp)
      intro u
      split at hcond
      · subst hcond
        exact Iff.rfl
      · exact hcond.waits
    · show WaitSet.Covers cond rest.length
      split at hcond
      · rw [hcond]
        exact hcovers
      · exact (hcovers.signal hcond).mono (Nat.le_succ _)
    · cases hrun.symm.trans hstop

theorem step (h : s.Awake) (hstep : Step n s l s') : s'.Awake := by
  cases hstep with
  | @addJob job cond hcond =>
    refine ⟨fun t => hcond.waits.trans (h.waits_iff t), ?_, fun hstop => ?_⟩
    · show WaitSet.Covers cond (s.queue ++ [job]).length
      rw [List.length_append]
      exact h.covers.signal hcond
    · have hempty := h.stopped hstop
      exact Finset.subset_empty.mp (hcond.sleeping_subset.trans hempty.subset)
  | stop =>
    simp only [BlockingQueue.stop]
    split
    · exact ⟨fun t => WaitSet.waits_broadcast.trans (h.waits_iff t), .inl rfl, fun _ => rfl⟩
    · exact h
  | commence hrun => exact ⟨h.waits_iff, h.covers, h.stopped⟩
  | run hcall => exact ⟨h.waits_iff, h.covers, fun hstop => by cases hstop⟩
  | @start t k hstart ht =>
    have hset : (s.setWorker t .looping).Awake := h.setWorker (by rw [ht]; simp) (by simp)
    exact ⟨hset.waits_iff, hset.covers, hset.stopped⟩
  | @takeJob _ t ht htake =>
    have hout : ¬ s.cond.Waits t := by rw [h.waits_iff, ht]; simp
    exact takeJob (s := s.record (.called t)) (fun u _ => h.waits_iff u) hout
      (h.covers.mono (Nat.sub_le _ _)) h.stopped htake
  | @retake _ t ht htake =>
    refine takeJob (s := { s with cond := s.cond.resume t }) (fun u hu => ?_) ?_ ?_ h.stopped htake
    · show (WaitSet.resume s.cond t).Waits u ↔ _
      rw [WaitSet.waits_resume ht, ← h.waits_iff]
      exact and_iff_right hu
    · show ¬ (WaitSet.resume s.cond t).Waits t
      rw [WaitSet.waits_resume ht]
      exact fun hself => hself.1 rfl
    · show (WaitSet.resume s.cond t).Covers (s.queue.length - 1)
      cases hlen : s.queue.length with
      | zero => exact WaitSet.covers_zero
      | succ k => exact (hlen ▸ h.covers).resume ht
  | @wake t ht =>
    refine ⟨fun u => (WaitSet.waits_wake (.inl ht)).trans (h.waits_iff u), h.covers.wake ht, ?_⟩
    intro hstop
    exact Finset.subset_empty.mp ((Finset.erase_subset _ _).trans (h.stopped hstop).subset)
  | @invoke t job ht =>
    have hset : (s.setWorker t (.invoking job)).Awake :=
      h.setWorker (by rw [ht]; simp) (by simp)
    exact ⟨hset.waits_iff, hset.covers, hset.stopped⟩
  | skip ht => exact h.setWorker (by rw [ht]; simp) (by simp)
  | @finish t job ended ht =>
    refine h.setWorker (by rw [ht]; simp) ?_
    cases ended <;> simp [afterJob]

end Awake

theorem reachable_awake (h : (queueRuns τ α n).Reachable s) : s.Awake := by
  refine h.invariant (I := Awake) ?_ fun s l s' _ hs hstep => hs.step hstep
  rintro s rfl
  exact .new

/-- In every run, either nobody sleeps or there are at most as many jobs queued as woken workers,
    and nobody sleeps while the queue is stopped. -/
theorem no_lost_wakeup (τ α : Type*) [DecidableEq τ] (ThreadNum : ℕ) (s : BlockingQueue τ α)
    (h : (queueRuns τ α ThreadNum).Reachable s) :
    (s.cond.sleeping = ∅ ∨ s.queue.length ≤ s.cond.woken.card) ∧
      (s.running = false → s.cond.sleeping = ∅) :=
  ⟨(reachable_awake h).covers, (reachable_awake h).stopped⟩

theorem reachable_step (h : (queueRuns τ α n).Reachable s) (hstep : Step n s l s') :
    (queueRuns τ α n).Reachable s' := .next l h hstep

/-- Two workers went to sleep, and then a job was added. -/
theorem oneWoken_reachable : ∃ s : BlockingQueue Bool Unit, (queueRuns Bool Unit 2).Reachable s ∧
    s.cond.sleeping = {true} ∧ s.cond.woken = {false} ∧ s.queue = [some ()] := by
  have hnew : (queueRuns Bool Unit 2).Reachable (new Bool Unit) := .start rfl
  have hcommence := reachable_step hnew (.commence rfl)
  have hrun := reachable_step hcommence (.run (n := 0) rfl)
  have hfirst := reachable_step hrun (.start (t := false) (n := 1) rfl rfl)
  have hsecond := reachable_step hfirst (.start (t := true) (n := 0) rfl rfl)
  have hsleep := reachable_step hsecond (.takeJob (t := false) rfl (.wait rfl rfl))
  have hboth := reachable_step hsleep (.takeJob (t := true) rfl (.wait rfl rfl))
  have hadd := reachable_step hboth (l := .addJob (some ()))
    (.addJob (.wakes (t := false) (by decide)))
  exact ⟨_, hadd, by decide, by decide, rfl⟩

/-- One worker sleeps on with a job queued, as the other was woken for it. -/
theorem no_lost_wakeup_sleeping : ∃ s : BlockingQueue Bool Unit,
    s.cond.sleeping = {true} ∧ s.cond.woken = {false} ∧ s.queue = [some ()] ∧
      (s.cond.sleeping = ∅ ∨ s.queue.length ≤ s.cond.woken.card) ∧
      (s.running = false → s.cond.sleeping = ∅) := by
  obtain ⟨s, hreach, hsleeping, hwoken, hqueue⟩ := oneWoken_reachable
  exact ⟨s, hsleeping, hwoken, hqueue, no_lost_wakeup Bool Unit 2 s hreach⟩

/-! ## Conservation and order -/

/-- One more event splits a log either in front of it or behind it. -/
theorem split_concat {β : Type*} {l pre post : List β} {x y : β}
    (h : l ++ [y] = pre ++ x :: post) :
    (y = x ∧ l = pre) ∨ ∃ post', post = post' ++ [y] ∧ l = pre ++ x :: post' := by
  rcases List.eq_nil_or_concat post with rfl | ⟨post', z, rfl⟩
  · obtain ⟨hl, hy⟩ := List.append_inj' h rfl
    exact .inl ⟨List.singleton_inj.mp hy, hl⟩
  · right
    have h' : l ++ [y] = (pre ++ x :: post') ++ [z] := by simpa using h
    obtain ⟨hl, hy⟩ := List.append_inj' h' rfl
    exact ⟨post', by rw [List.singleton_inj.mp hy, List.concat_eq_append], hl⟩

omit [DecidableEq τ] in
theorem StopRespected.concat (h : StopRespected log)
    (he : ∀ t job, e = .returned t job → stoppedAfter log = false) :
    StopRespected (log ++ [e]) := by
  intro pre t job post heq
  rcases split_concat heq with ⟨rfl, rfl⟩ | ⟨post', -, hlog⟩
  · exact he t job rfl
  · exact h pre t job post' hlog

theorem byWorker_concat (t : τ) (log : List (QueueEvent τ α)) (e : QueueEvent τ α) :
    byWorker t (log ++ [e]) = byWorker t log ++ byWorker t [e] := List.filter_append ..

theorem byWorker_concat_of_nil (h : byWorker u [e] = []) :
    byWorker u (log ++ [e]) = byWorker u log := by
  rw [byWorker_concat, h, List.append_nil]

omit [DecidableEq τ] in
theorem stoppedAfter_concat (log : List (QueueEvent τ α)) (e : QueueEvent τ α) :
    stoppedAfter (log ++ [e]) = match e with
      | .stopped => true
      | .commenced => false
      | _ => stoppedAfter log := by
  simp only [stoppedAfter, List.foldl_append, List.foldl_cons, List.foldl_nil]

omit [DecidableEq τ] in
theorem added_concat (log : List (QueueEvent τ α)) (e : QueueEvent τ α) :
    added (log ++ [e]) = added log ++ added [e] := List.filterMap_append ..

omit [DecidableEq τ] in
theorem returned_concat (log : List (QueueEvent τ α)) (e : QueueEvent τ α) :
    returned (log ++ [e]) = returned log ++ returned [e] := List.filterMap_append ..

omit [DecidableEq τ] in
/-- An event that moves no job. -/
theorem conserved_concat {queue : List (Option α)} (h : added log = returned log ++ queue)
    (hadded : added [e] = []) (hreturned : returned [e] = []) :
    added (log ++ [e]) = returned (log ++ [e]) ++ queue := by
  rw [added_concat, returned_concat, hadded, hreturned, List.append_nil, List.append_nil, h]

/-- What another thread does is no part of what worker `t` did. -/
theorem Served.congr (h : s.Served t) (hlog : byWorker t s'.log = byWorker t s.log)
    (hworker : s'.workers t = s.workers t) : s'.Served t := by
  simpa only [Served, hlog, hworker] using h

/-- What the log has to do with the state. -/
structure Recorded (s : BlockingQueue τ α) : Prop where
  conserved : added s.log = returned s.log ++ s.queue
  running : s.running = true → stoppedAfter s.log = false
  respected : StopRespected s.log
  served : ∀ t, s.Served t

namespace Recorded

theorem new : (new τ α).Recorded := by
  refine ⟨rfl, fun hrun => ?_, ?_, fun t => ⟨[], [], rfl, rfl⟩⟩
  · cases hrun
  · intro pre t job post h
    cases pre <;> cases h

/-- The loop of `takeJob`, run by a worker that has called it. -/
theorem takeJob (hconserved : added s.log = returned s.log ++ s.queue)
    (hrunning : s.running = true → stoppedAfter s.log = false) (hrespected : StopRespected s.log)
    (hothers : ∀ u, u ≠ t → s.Served u) {jobs : List (Option α)}
    (ht : byWorker t s.log = jobs.flatMap (turn t) ++ [.called t]) (h : TakeJob t s s') :
    s'.Recorded := by
  cases h with
  | wait hqueue hrun =>
    refine ⟨hconserved, hrunning, hrespected, fun u => ?_⟩
    by_cases hu : u = t
    · subst hu
      refine ⟨jobs, [.called u], ht, ?_⟩
      show Underway u ((s.setWorker u .waiting).workers u) _
      rw [setWorker_self]
      rfl
    · exact (hothers u hu).congr rfl (setWorker_of_ne hu)
  | quit hrun =>
    refine ⟨hconserved, hrunning, hrespected, fun u => ?_⟩
    by_cases hu : u = t
    · subst hu
      refine ⟨jobs, [.called u], ht, ?_⟩
      rw [setWorker_self]
      exact .inr rfl
    · exact (hothers u hu).congr rfl (setWorker_of_ne hu)
  | @take job rest cond hqueue hrun hcond =>
    have hstop := hrunning hrun
    refine ⟨?_, fun _ => ?_, hrespected.concat fun _ _ _ => hstop, fun u => ?_⟩
    · show added (s.log ++ [.returned t job]) = returned (s.log ++ [.returned t job]) ++ rest
      rw [hqueue] at hconserved
      simpa [added, returned] using hconserved
    · show stoppedAfter (s.log ++ [.returned t job]) = false
      rw [stoppedAfter_concat]
      exact hstop
    · by_cases hu : u = t
      · subst hu
        refine ⟨jobs, [.called u, .returned u job], ?_, ?_⟩
        · show byWorker u (s.log ++ [.returned u job]) = _
          rw [byWorker_concat, ht]
          simp [byWorker]
        · show Underway u ((s.setWorker u (.taken job)).workers u) _
          rw [setWorker_self]
          rfl
      · refine (hothers u hu).congr (byWorker_concat_of_nil ?_) (setWorker_of_ne hu)
        simp [byWorker, Ne.symm hu]

/-- Worker `t` gets to another point without a record, with the same part of a turn behind it. -/
theorem setWorker (h : s.Recorded)
    (ht : ∀ es, Underway t (s.workers t) es → ∃ jobs es', es = List.flatMap (turn t) jobs ++ es' ∧
      Underway t pc es') : (s.setWorker t pc).Recorded := by
  refine ⟨h.conserved, h.running, h.respected, fun u => ?_⟩
  by_cases hu : u = t
  · subst hu
    obtain ⟨jobs, es, hlog, hes⟩ := h.served u
    obtain ⟨jobs', es', rfl, hes'⟩ := ht es hes
    refine ⟨jobs ++ jobs', es', ?_, ?_⟩
    · show byWorker u s.log = _
      rw [hlog, List.flatMap_append, List.append_assoc]
    · rw [setWorker_self]
      exact hes'
  · exact (h.served u).congr rfl (setWorker_of_ne hu)

/-- An event of no worker. -/
theorem record (h : s.Recorded) (hlog : ∀ u, byWorker u [e] = [])
    (hconserved : added (s.log ++ [e]) = returned (s.log ++ [e]) ++ s'.queue)
    (hrunning : s'.running = true → stoppedAfter (s.log ++ [e]) = false)
    (he : ∀ t job, e ≠ .returned t job) (hs' : s'.log = s.log ++ [e])
    (hworkers : s'.workers = s.workers) : s'.Recorded := by
  refine ⟨hs' ▸ hconserved, hs' ▸ hrunning, ?_, fun u => ?_⟩
  · rw [hs']
    exact h.respected.concat fun t job heq => absurd heq (he t job)
  · refine (h.served u).congr ?_ (congrFun hworkers u)
    rw [hs', byWorker_concat_of_nil (hlog u)]

/-- An event that moves no job and neither stops nor starts the queue. -/
theorem concat (h : s.Recorded) (e : QueueEvent τ α) (hadded : added [e] = [])
    (hreturned : returned [e] = []) (hstopped : stoppedAfter (s.log ++ [e]) = stoppedAfter s.log) :
    added (s.log ++ [e]) = returned (s.log ++ [e]) ++ s.queue ∧
      (s.running = true → stoppedAfter (s.log ++ [e]) = false) ∧ StopRespected (s.log ++ [e]) := by
  refine ⟨conserved_concat h.conserved hadded hreturned, fun hrun => ?_, h.respected.concat ?_⟩
  · rw [hstopped]
    exact h.running hrun
  · rintro t job rfl
    cases hreturned

theorem step (h : s.Recorded) (hwaits : ∀ t, t ∈ s.cond.woken → s.workers t = .waiting)
    (hstep : Step n s l s') : s'.Recorded := by
  cases hstep with
  | @addJob job cond hcond =>
    refine h.record (e := .added job) (fun _ => rfl) ?_ (fun hrun => ?_) (by simp) rfl rfl
    · rw [added_concat, returned_concat, h.conserved, List.append_assoc]
      show _ = (returned s.log ++ []) ++ (s.queue ++ [job])
      rw [List.append_nil]
      rfl
    · rw [stoppedAfter_concat]
      exact h.running hrun
  | stop =>
    simp only [BlockingQueue.stop]
    split
    · have hconserved := conserved_concat (e := .stopped) h.conserved rfl rfl
      refine h.record (e := .stopped) (fun _ => rfl) hconserved (fun hrun => ?_) (by simp) rfl rfl
      cases hrun
    · exact h
  | commence hrun => exact ⟨h.conserved, h.running, h.respected, h.served⟩
  | @run k hcall =>
    have hconserved := conserved_concat (e := .commenced) h.conserved rfl rfl
    refine h.record (e := .commenced) (fun _ => rfl) hconserved (fun _ => ?_) (by simp) rfl rfl
    rw [stoppedAfter_concat]
  | @start t k hstart ht =>
    have hset : (s.setWorker t .looping).Recorded := by
      apply h.setWorker
      rw [ht]
      rintro es rfl
      exact ⟨[], [], rfl, rfl⟩
    exact ⟨hset.conserved, hset.running, hset.respected, hset.served⟩
  | @takeJob _ t ht htake =>
    obtain ⟨jobs, es, hlog, hes⟩ := h.served t
    rw [ht] at hes
    obtain rfl : es = [] := hes
    rw [List.append_nil] at hlog
    have hcalled : byWorker t (s.record (.called t)).log =
        jobs.flatMap (turn t) ++ [.called t] := by
      show byWorker t (s.log ++ [.called t]) = _
      rw [byWorker_concat, hlog]
      simp [byWorker]
    obtain ⟨hconserved, hrunning, hrespected⟩ :=
      h.concat (.called t) rfl rfl (stoppedAfter_concat _ _)
    refine takeJob (s := s.record (.called t)) hconserved hrunning hrespected (fun u hu => ?_)
      hcalled htake
    refine (h.served u).congr (byWorker_concat_of_nil ?_) rfl
    simp [byWorker, Ne.symm hu]
  | @retake _ t ht htake =>
    obtain ⟨jobs, es, hlog, hes⟩ := h.served t
    rw [hwaits t ht] at hes
    obtain rfl : es = [.called t] := hes
    exact takeJob (s := { s with cond := s.cond.resume t }) h.conserved h.running h.respected
      (fun u _ => h.served u) hlog htake
  | wake ht => exact ⟨h.conserved, h.running, h.respected, h.served⟩
  | @invoke t job ht =>
    obtain ⟨jobs, es, hlog, hes⟩ := h.served t
    rw [ht] at hes
    obtain rfl : es = [.called t, .returned t (some job)] := hes
    obtain ⟨hconserved, hrunning, hrespected⟩ :=
      h.concat (.invoked t job) rfl rfl (stoppedAfter_concat _ _)
    refine ⟨hconserved, hrunning, hrespected, fun u => ?_⟩
    by_cases hu : u = t
    · -- the job it took is the one it invokes, which ends the turn
      subst hu
      refine ⟨jobs ++ [some job], [], ?_, ?_⟩
      · show byWorker u (s.log ++ [.invoked u job]) = _
        rw [byWorker_concat, hlog, List.flatMap_append]
        simp [byWorker, turn]
      · show Underway u ((s.setWorker u (.invoking job)).workers u) _
        rw [setWorker_self]
        rfl
    · refine (h.served u).congr (byWorker_concat_of_nil ?_) (setWorker_of_ne hu)
      simp [byWorker, Ne.symm hu]
  | @skip t ht =>
    apply h.setWorker
    rw [ht]
    rintro es rfl
    exact ⟨[none], [], rfl, rfl⟩
  | @finish t job ended ht =>
    apply h.setWorker
    rw [ht]
    rintro es rfl
    refine ⟨[], [], rfl, ?_⟩
    cases ended
    · rfl
    · rfl
    · exact .inl rfl

end Recorded

theorem reachable_recorded (h : (queueRuns τ α n).Reachable s) : s.Recorded := by
  refine h.invariant (I := Recorded) ?_ fun s l s' hreach hs hstep => hs.step ?_ hstep
  · rintro s rfl
    exact .new
  · exact fun t ht => ((reachable_awake hreach).waits_iff t).mp (.inr ht)

/-- In every run, whatever the jobs do and throw: the jobs added are those that `takeJob` returned
    followed by those in the queue, in order; an empty job is returned only if one was added; each
    worker invokes each non-empty job that it took, once and before it calls `takeJob` again; and
    no job is returned between a `stop` that took effect and a later `commence`. -/
theorem conserves_jobs (τ α : Type*) [DecidableEq τ] (ThreadNum : ℕ) (s : BlockingQueue τ α)
    (h : (queueRuns τ α ThreadNum).Reachable s) :
    added s.log = returned s.log ++ s.queue ∧
      (none ∈ returned s.log → none ∈ added s.log) ∧
      (∀ t, s.Served t) ∧
      StopRespected s.log := by
  have hrec := reachable_recorded h
  refine ⟨hrec.conserved, fun hnone => ?_, hrec.served, hrec.respected⟩
  rw [hrec.conserved]
  exact List.mem_append_left _ hnone

/-- The queue with its one worker started. -/
def started : BlockingQueue Unit Unit :=
  let s := { BlockingQueue.new Unit Unit with running := true, starting := 1 }.record .commenced
  { s.setWorker () .looping with starting := 0 }

theorem started_reachable : (queueRuns Unit Unit 1).Reachable started := by
  have hcommence : Step 1 (new Unit Unit) .commence { new Unit Unit with commencing := 1 } :=
    .commence rfl
  have hrun : Step 1 _ .run _ := .run (s := { new Unit Unit with commencing := 1 }) rfl
  have hstart : Step 1 _ (.start ()) started := .start rfl rfl
  exact .next _ (.next _ (.next _ (.start rfl) hcommence) hrun) hstart

/-- A job is there, and the worker calls `takeJob`. -/
def called : BlockingQueue Unit Unit :=
  ({ started with queue := [some ()] }.record (.added (some ()))).record (.called ())

/-- It takes the job. -/
theorem conserves_taken :
    ∃ s : BlockingQueue Unit Unit, s.workers () = .taken (some ()) ∧
      added s.log = returned s.log ++ s.queue ∧
      (none ∈ returned s.log → none ∈ added s.log) ∧ (∀ t, s.Served t) ∧ StopRespected s.log := by
  have hadd : Step 1 started (.addJob (some ()))
      ({ started with queue := [some ()] }.record (.added (some ()))) := .addJob (.lost rfl)
  have hbody : TakeJob () called
      ({ called.setWorker () (.taken (some ())) with queue := [] }.record
        (.returned () (some ()))) := .take rfl rfl (by rw [if_pos rfl]; rfl)
  have htake : Step 1 ({ started with queue := [some ()] }.record (.added (some ())))
      (.takeJob ()) _ := .takeJob rfl hbody
  exact ⟨_, rfl, conserves_jobs Unit Unit 1 _ (.next _ (.next _ started_reachable hadd) htake)⟩

end BlockingQueue

end Codechiev
