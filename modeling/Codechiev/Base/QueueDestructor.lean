import Codechiev.Base.WorkerCount
import Mathlib.Algebra.Order.BigOperators.Group.List
import Mathlib.Algebra.Order.Ring.Nat

/-!
# The destructor of a `BlockingQueue`

`~BlockingQueue` joins every thread in `threads_`, one after the other, and asks none of them to
leave. After a `stop` it comes to its end as far as the jobs do: the workers have a bounded number
of steps left, as long as the destructor is not through a worker or the destructor itself can go
on, and once it is through no worker is left that could touch the queue. Without a `stop` it waits
for the first worker for ever.
-/

namespace Codechiev

/-- A queue, the workers in `threads_`, and, once its destructor has been entered, those that it has
    yet to join. -/
structure QueueLifetime (τ α : Type*) extends BlockingQueue τ α where
  threads : List τ
  joining : Option (List τ)

/-- A step of the queue, the entry of the destructor, or the return of one of its `join`s. -/
inductive LifetimeStep (τ α : Type*) where
  | queue (l : QueueStep τ α)
  | destroy
  | join

/-- What a step of the queue adds to `threads_`. -/
def QueueStep.thread {τ α : Type*} : QueueStep τ α → List τ
  | .start t => [t]
  | _ => []

/-- The worker that takes the step, once it has been started. -/
def QueueStep.worker {τ α : Type*} : QueueStep τ α → Option τ
  | .takeJob t | .retake t | .wake t | .invoke t | .skip t | .finish t _ => some t
  | .addJob _ | .stop | .commence | .run | .start _ => none

/-- How many steps a worker of a stopped queue has left at most. -/
def QueueWorker.rank {α : Type*} : QueueWorker α → ℕ
  | absent | exited => 0
  | looping | waiting => 1
  | taken none | invoking _ => 2
  | taken (some _) => 3

/-- How a worker moves on, with what it finds in `running_`. -/
inductive QueueWorker.Moves {τ α : Type*} (running : Bool) (l : QueueStep τ α) :
    QueueWorker α → QueueWorker α → Prop where
  | wait {w : QueueWorker α} (hw : w = looping ∨ w = waiting) (hrun : running = true) :
      Moves running l w waiting
  | quit {w : QueueWorker α} (hw : w = looping ∨ w = waiting) (hrun : running = false) :
      Moves running l w exited
  | take {w : QueueWorker α} {job : Option α} (hw : w = looping ∨ w = waiting)
      (hrun : running = true) : Moves running l w (taken job)
  | invoke {job : α} : Moves running l (taken (some job)) (invoking job)
  | skip : Moves running l (taken none) looping
  | finish {t : τ} {job : α} {ended : JobEnd} (hl : l = .finish t ended) :
      Moves running l (invoking job) (BlockingQueue.afterJob ended)

namespace QueueWorker.Moves

variable {τ α : Type*} {running : Bool} {l : QueueStep τ α} {w w' : QueueWorker α}

theorem ne_absent (h : Moves running l w w') : w ≠ absent ∧ w' ≠ absent := by
  cases h with
  | wait hw hrun => exact ⟨by rcases hw with rfl | rfl <;> nofun, nofun⟩
  | quit hw hrun => exact ⟨by rcases hw with rfl | rfl <;> nofun, nofun⟩
  | take hw hrun => exact ⟨by rcases hw with rfl | rfl <;> nofun, nofun⟩
  | invoke => exact ⟨nofun, nofun⟩
  | skip => exact ⟨nofun, nofun⟩
  | @finish t job ended hl => exact ⟨nofun, by cases ended <;> nofun⟩

theorem ne_exited (h : Moves running l w w') : w ≠ exited := by
  cases h with
  | wait hw hrun => rcases hw with rfl | rfl <;> nofun
  | quit hw hrun => rcases hw with rfl | rfl <;> nofun
  | take hw hrun => rcases hw with rfl | rfl <;> nofun
  | invoke => nofun
  | skip => nofun
  | finish hl => nofun

/-- It leaves only when it finds the queue stopped, or its job throws `QueueBreak`. -/
theorem of_exited (h : Moves running l w exited) :
    running = false ∨ ∃ t, l = .finish t .breaks := by
  generalize hw' : exited = v at h
  cases h with
  | wait hw hrun => cases hw'
  | quit hw hrun => exact .inl hrun
  | take hw hrun => cases hw'
  | invoke => cases hw'
  | skip => cases hw'
  | @finish t job ended hl =>
    cases ended with
    | returns => cases hw'
    | throws => cases hw'
    | breaks => exact .inr ⟨t, hl⟩

theorem rank_lt (h : Moves running l w w') (hstop : running = false) : w'.rank < w.rank := by
  cases h with
  | wait hw hrun => cases hrun.symm.trans hstop
  | quit hw hrun => rcases hw with rfl | rfl <;> exact Nat.one_pos
  | take hw hrun => cases hrun.symm.trans hstop
  | invoke => exact Nat.lt_succ_self 2
  | skip => exact Nat.lt_succ_self 1
  | @finish t job ended hl =>
    cases ended with
    | returns => exact Nat.lt_succ_self 1
    | throws => exact Nat.lt_succ_self 1
    | breaks => exact Nat.two_pos

end QueueWorker.Moves

namespace QueueLifetime

variable {τ α : Type*}

/-- The constructor. -/
def new (τ α : Type*) : QueueLifetime τ α := ⟨.new τ α, [], none⟩

section Steps

variable [DecidableEq τ]

/-- The steps. -/
inductive Step (ThreadNum : ℕ) :
    QueueLifetime τ α → LifetimeStep τ α → QueueLifetime τ α → Prop where
  | queue {s : QueueLifetime τ α} {q : BlockingQueue τ α} {l : QueueStep τ α}
      (hstep : BlockingQueue.Step ThreadNum s.toBlockingQueue l q) :
      Step ThreadNum s (.queue l) ⟨q, s.threads ++ l.thread, s.joining⟩
  | destroy {s : QueueLifetime τ α} (hjoin : s.joining = none) :
      Step ThreadNum s .destroy { s with joining := some s.threads }
  | join {s : QueueLifetime τ α} {t : τ} {rest : List τ} (hjoin : s.joining = some (t :: rest))
      (hexited : s.workers t = .exited) :
      Step ThreadNum s .join { s with joining := some rest }

/-- The runs of a queue from its construction on. -/
def lifetimeRuns (τ α : Type*) [DecidableEq τ] (ThreadNum : ℕ) :
    LabelledSystem (QueueLifetime τ α) (LifetimeStep τ α) where
  init s := s = new τ α
  step := Step ThreadNum

end Steps

/-- The destructor is entered when no `commence` is under way, and none is called after that. -/
def Careful (s : QueueLifetime τ α) : LifetimeStep τ α → Prop
  | .queue .commence => s.joining = none
  | .destroy => s.commencing = 0 ∧ s.starting = 0
  | _ => True

/-- The destructor has joined every thread. -/
def Destroyed (s : QueueLifetime τ α) : Prop := s.joining = some []

/-- The destructor has been entered and the queue is stopped. -/
def Closing (s : QueueLifetime τ α) : Prop := s.joining ≠ none ∧ s.running = false

/-- The step is one of a worker, or of the destructor. -/
def Works : LifetimeStep τ α → Bool
  | .queue l => l.worker.isSome
  | .destroy => false
  | .join => true

/-- How many such steps are left at most once the queue is stopped. -/
def work (s : QueueLifetime τ α) : ℕ :=
  (s.threads.map fun t => (s.workers t).rank).sum + (s.joining.getD []).length

/-- No worker is there, and none will take a step. -/
def Quiet [DecidableEq τ] (ThreadNum : ℕ) (s : QueueLifetime τ α) : Prop :=
  (∀ t, ¬ s.Live t) ∧ ∀ l s', Step ThreadNum s (.queue l) s' → l.worker = none ∧ l.thread = []

/-- Nothing stops the queue: no `stop`, and no job that throws `QueueBreak`. -/
def Unstopped : LifetimeStep τ α → Prop
  | .queue .stop | .queue (.finish _ .breaks) => False
  | _ => True

end QueueLifetime

/-! ## One step of the queue -/

namespace BlockingQueue

variable {τ α : Type*} [DecidableEq τ] {s s' : BlockingQueue τ α} {t u : τ} {n : ℕ}
  {l : QueueStep τ α} {w w' : QueueWorker α}

/-- What a step does to worker `u`. -/
inductive WorkerStep (s : BlockingQueue τ α) (l : QueueStep τ α) (s' : BlockingQueue τ α) (u : τ) :
    Prop where
  | same (hsame : s'.workers u = s.workers u) (hstart : l ≠ .start u)
      (hworker : l.worker = some u → l = .wake u)
  | starts (hl : l = .start u) (hold : s.workers u = .absent) (hnew : s'.workers u = .looping)
  | moves (hl : l.worker = some u)
      (hmoves : QueueWorker.Moves s.running l (s.workers u) (s'.workers u))

theorem WorkerStep.setWorker (hl : l.worker = some t) (hw : s.workers t = w)
    (hmoves : QueueWorker.Moves s.running l w w')
    (hs' : s'.workers = (s.setWorker t w').workers) : WorkerStep s l s' u := by
  by_cases hu : u = t
  · subst hu
    refine .moves hl ?_
    rw [hs', setWorker_self, hw]
    exact hmoves
  · refine .same ?_ ?_ ?_
    · rw [hs', setWorker_of_ne hu]
    · rintro rfl
      cases hl
    · intro hworker
      exact absurd (Option.some.inj (hworker.symm.trans hl)) hu

/-- The loop of `takeJob`, run by a worker that is in it. -/
theorem TakeJob.workerStep {q : BlockingQueue τ α} (h : TakeJob t q s') (hl : l.worker = some t)
    (hw : s.workers t = .looping ∨ s.workers t = .waiting) (hq : q.workers = s.workers)
    (hrunning : q.running = s.running) : WorkerStep s l s' u := by
  have hset : ∀ pc, (q.setWorker t pc).workers = (s.setWorker t pc).workers := fun pc => by
    simp only [BlockingQueue.setWorker, hq]
  cases h with
  | wait hqueue hrun => exact .setWorker hl rfl (.wait hw (hrunning ▸ hrun)) (hset _)
  | quit hrun => exact .setWorker hl rfl (.quit hw (hrunning ▸ hrun)) (hset _)
  | take hqueue hrun hcond => exact .setWorker hl rfl (.take hw (hrunning ▸ hrun)) (hset _)

theorem workerStep (hwaits : ∀ t, t ∈ s.cond.woken → s.workers t = .waiting)
    (hstep : Step n s l s') (u : τ) : WorkerStep s l s' u := by
  cases hstep with
  | addJob hcond => exact .same rfl (by rintro ⟨⟩) (by rintro ⟨⟩)
  | stop =>
    refine .same ?_ (by rintro ⟨⟩) (by rintro ⟨⟩)
    simp only [BlockingQueue.stop]
    split <;> rfl
  | commence hrun => exact .same rfl (by rintro ⟨⟩) (by rintro ⟨⟩)
  | run hcall => exact .same rfl (by rintro ⟨⟩) (by rintro ⟨⟩)
  | @start t k hstart ht =>
    by_cases hu : u = t
    · subst hu
      exact .starts rfl ht setWorker_self
    · refine .same (setWorker_of_ne hu) (fun heq => ?_) (by rintro ⟨⟩)
      exact hu (QueueStep.start.inj heq).symm
  | takeJob ht htake => exact htake.workerStep rfl (.inl ht) rfl rfl
  | retake ht htake => exact htake.workerStep rfl (.inr (hwaits _ ht)) rfl rfl
  | @wake t ht =>
    refine .same rfl (by rintro ⟨⟩) fun hworker => ?_
    rw [Option.some.inj hworker]
  | invoke ht => exact .setWorker rfl ht .invoke rfl
  | skip ht => exact .setWorker rfl ht .skip rfl
  | finish ht => exact .setWorker rfl ht (.finish rfl) rfl

namespace WorkerStep

omit [DecidableEq τ] in
/-- A worker is there, or was, from its start on. -/
theorem absent_iff (h : WorkerStep s l s' u) :
    s'.workers u = .absent ↔ s.workers u = .absent ∧ u ∉ l.thread := by
  cases h with
  | same hsame hstart hworker =>
    have hthread : u ∉ l.thread := by
      cases l with
      | start t =>
        rw [QueueStep.thread, List.mem_singleton]
        rintro rfl
        exact hstart rfl
      | _ => exact List.not_mem_nil
    rw [hsame]
    exact (and_iff_left hthread).symm
  | starts hl hold hnew =>
    rw [hnew, hl]
    exact iff_of_false nofun fun h => h.2 List.mem_cons_self
  | moves hl hmoves =>
    obtain ⟨hold, hnew⟩ := hmoves.ne_absent
    exact iff_of_false hnew fun h => hold h.1

omit [DecidableEq τ] in
/-- A worker that has left does not come back. -/
theorem exited (h : WorkerStep s l s' u) (hexited : s.workers u = .exited) :
    s'.workers u = .exited := by
  cases h with
  | same hsame hstart hworker => exact hsame.trans hexited
  | starts hl hold hnew => cases hold.symm.trans hexited
  | moves hl hmoves => exact absurd hexited hmoves.ne_exited

omit [DecidableEq τ] in
/-- No step of a stopped queue moves a worker away from its end. -/
theorem rank_le (h : WorkerStep s l s' u) (hstop : s.running = false) (hstart : l ≠ .start u) :
    (s'.workers u).rank ≤ (s.workers u).rank := by
  cases h with
  | same hsame _ hworker => rw [hsame]
  | starts hl hold hnew => exact absurd hl hstart
  | moves hl hmoves => exact (hmoves.rank_lt hstop).le

end WorkerStep

/-- With no `commence` and no start under way, a step that is no `commence` brings in neither and
    does not set `running_`. -/
theorem idle_of_step (hstep : Step n s l s') (hl : l ≠ .commence) (hcommencing : s.commencing = 0)
    (hstarting : s.starting = 0) :
    s'.commencing = 0 ∧ s'.starting = 0 ∧ l.thread = [] ∧
      (s.running = false → s'.running = false) := by
  cases hstep with
  | commence hrun => exact absurd rfl hl
  | run hcall => cases hcommencing.symm.trans hcall
  | start hstart ht => cases hstarting.symm.trans hstart
  | stop =>
    simp only [BlockingQueue.stop]
    split
    · exact ⟨hcommencing, hstarting, rfl, fun _ => rfl⟩
    · exact ⟨hcommencing, hstarting, rfl, id⟩
  | takeJob ht htake =>
    cases htake <;> exact ⟨hcommencing, hstarting, rfl, id⟩
  | retake ht htake =>
    cases htake <;> exact ⟨hcommencing, hstarting, rfl, id⟩
  | _ => exact ⟨hcommencing, hstarting, rfl, id⟩

/-- The queue does not stop without a `stop`, and a step that finds it stopped starts a worker only
    for an earlier `commence`. -/
theorem stopped_of_step (hstep : Step n s l s') (hl : l ≠ .stop) (hstop : s'.running = false) :
    s.running = false ∧ (s.starting = 0 → s'.starting = 0 ∧ l.thread = []) := by
  cases hstep with
  | stop => exact absurd rfl hl
  | run hcall => cases hstop
  | start hstart ht => exact ⟨hstop, fun hzero => by cases hzero.symm.trans hstart⟩
  | takeJob ht htake => cases htake <;> exact ⟨hstop, fun hzero => ⟨hzero, rfl⟩⟩
  | retake ht htake => cases htake <;> exact ⟨hstop, fun hzero => ⟨hzero, rfl⟩⟩
  | _ => exact ⟨hstop, fun hzero => ⟨hzero, rfl⟩⟩

end BlockingQueue

namespace QueueLifetime

variable {τ α : Type*} [DecidableEq τ] {s s' : QueueLifetime τ α} {t : τ} {n : ℕ}
  {l : LifetimeStep τ α} {ls : List (LifetimeStep τ α)}

/-- The threads are the workers that were started, none is being started once the destructor has
    been entered, and it has joined only workers that have left. -/
structure Joined (n : ℕ) (s : QueueLifetime τ α) : Prop where
  reachable : (BlockingQueue.queueRuns τ α n).Reachable s.toBlockingQueue
  threads_iff : ∀ t, s.workers t = .absent ↔ t ∉ s.threads
  idle : s.joining ≠ none → s.commencing = 0 ∧ s.starting = 0
  joined : ∀ rest, s.joining = some rest →
    ∃ gone, s.threads = gone ++ rest ∧ ∀ t ∈ gone, s.workers t = .exited

namespace Joined

theorem new : (new τ α).Joined n :=
  ⟨.start rfl, fun _ => iff_of_true rfl List.not_mem_nil, nofun, nofun⟩

/-- What a step of the queue does to a worker. -/
theorem workerStep {q : BlockingQueue τ α} {l : QueueStep τ α} (h : s.Joined n)
    (hstep : BlockingQueue.Step n s.toBlockingQueue l q) (t : τ) :
    BlockingQueue.WorkerStep s.toBlockingQueue l q t :=
  BlockingQueue.workerStep (fun _ => BlockingQueue.waiting_of_woken h.reachable) hstep t

theorem queue {q : BlockingQueue τ α} {l : QueueStep τ α} (h : s.Joined n)
    (hl : s.Careful (.queue l)) (hstep : BlockingQueue.Step n s.toBlockingQueue l q) :
    Joined n ⟨q, s.threads ++ l.thread, s.joining⟩ := by
  have hidle : s.joining ≠ none → q.commencing = 0 ∧ q.starting = 0 ∧ l.thread = [] := by
    intro hjoin
    have hne : l ≠ .commence := by
      rintro rfl
      exact hjoin hl
    obtain ⟨hcommencing, hstarting⟩ := h.idle hjoin
    obtain ⟨hc, hs, hthread, -⟩ := BlockingQueue.idle_of_step hstep hne hcommencing hstarting
    exact ⟨hc, hs, hthread⟩
  refine ⟨.next l h.reachable hstep, fun t => ?_, fun hjoin => ?_, fun rest hrest => ?_⟩
  · show q.workers t = .absent ↔ _
    rw [(h.workerStep hstep t).absent_iff, h.threads_iff, List.mem_append, not_or]
  · obtain ⟨hc, hs, -⟩ := hidle hjoin
    exact ⟨hc, hs⟩
  · obtain ⟨gone, hthreads, hgone⟩ := h.joined rest hrest
    obtain ⟨-, -, hthread⟩ := hidle fun hnone => by cases hrest.symm.trans hnone
    refine ⟨gone, ?_, fun t ht => (h.workerStep hstep t).exited (hgone t ht)⟩
    show s.threads ++ l.thread = _
    rw [hthread, List.append_nil, hthreads]

theorem step (h : s.Joined n) (hl : s.Careful l) (hstep : Step n s l s') : s'.Joined n := by
  cases hstep with
  | queue hstep => exact h.queue hl hstep
  | destroy hjoin =>
    refine ⟨h.reachable, h.threads_iff, fun _ => hl, fun rest hrest => ⟨[], ?_, nofun⟩⟩
    exact Option.some.inj hrest
  | @join t rest hjoin hexited =>
    have hentered : s.joining ≠ none := by
      rw [hjoin]
      nofun
    obtain ⟨gone, hthreads, hgone⟩ := h.joined _ hjoin
    refine ⟨h.reachable, h.threads_iff, fun _ => h.idle hentered, fun rest' hrest => ?_⟩
    obtain rfl : rest = rest' := Option.some.inj hrest
    refine ⟨gone ++ [t], ?_, ?_⟩
    · rw [List.append_assoc]
      exact hthreads
    · rw [List.forall_mem_append, List.forall_mem_singleton]
      exact ⟨hgone, hexited⟩

/-- A worker that can take a step is in `threads_` and has not left. -/
theorem worker_of_step {q : BlockingQueue τ α} {l : QueueStep τ α} (h : s.Joined n)
    (hstep : BlockingQueue.Step n s.toBlockingQueue l q) (ht : l.worker = some t) :
    t ∈ s.threads ∧ s.workers t ≠ .exited := by
  have hpc : s.workers t ≠ .absent ∧ s.workers t ≠ .exited := by
    cases h.workerStep hstep t with
    | same hsame hstart hworker =>
      -- a thread that wakes by itself waits in `takeJob`
      cases hworker ht
      cases hstep with
      | wake hsleep =>
        have hwaits := ((BlockingQueue.reachable_awake h.reachable).waits_iff t).mp (.inl hsleep)
        rw [hwaits]
        exact ⟨nofun, nofun⟩
    | starts hl hold hnew =>
      cases hl
      cases ht
    | moves hl hmoves => exact ⟨hmoves.ne_absent.1, hmoves.ne_exited⟩
  exact ⟨not_not.mp (mt (h.threads_iff t).mpr hpc.1), hpc.2⟩

/-- When every thread has been joined, nobody is left. -/
theorem quiet (h : s.Joined n) (hdestroyed : s.Destroyed) : s.Quiet n := by
  obtain ⟨gone, hthreads, hgone⟩ := h.joined [] hdestroyed
  rw [List.append_nil] at hthreads
  refine ⟨fun t hlive => ?_, fun l s' hstep => ?_⟩
  · by_cases ht : t ∈ s.threads
    · exact BlockingQueue.not_live_of_eq (hgone t (hthreads ▸ ht)) id hlive
    · exact BlockingQueue.not_live_of_eq ((h.threads_iff t).mpr ht) id hlive
  · cases hstep with
    | queue hstep =>
      constructor
      · rw [Option.eq_none_iff_forall_ne_some]
        intro t ht
        obtain ⟨hmem, hstays⟩ := h.worker_of_step hstep ht
        exact hstays (hgone t (hthreads ▸ hmem))
      · by_cases hl : l = .commence
        · rw [hl]
          rfl
        · obtain ⟨hcommencing, hstarting⟩ := h.idle fun hnone => by
            cases hdestroyed.symm.trans hnone
          exact (BlockingQueue.idle_of_step hstep hl hcommencing hstarting).2.2.1

/-- A step of a worker of a stopped queue takes it nearer to its end. -/
theorem rank_lt {q : BlockingQueue τ α} {l : QueueStep τ α} (h : s.Joined n)
    (hstop : s.running = false) (hstep : BlockingQueue.Step n s.toBlockingQueue l q)
    (ht : l.worker = some t) : (q.workers t).rank < (s.workers t).rank := by
  cases h.workerStep hstep t with
  | same hsame hstart hworker =>
    -- nobody sleeps, so nobody wakes
    cases hworker ht
    cases hstep with
    | wake hsleep =>
      rw [(BlockingQueue.reachable_awake h.reachable).stopped hstop] at hsleep
      cases hsleep
  | starts hl hold hnew =>
    cases hl
    cases ht
  | moves hl hmoves => exact hmoves.rank_lt hstop

/-- A step of a queue that is being destroyed after a `stop`. -/
theorem closing_step (h : s.Joined n) (hclosing : s.Closing) (hl : s.Careful l)
    (hstep : Step n s l s') :
    s'.Closing ∧ s'.work + (if Works l then 1 else 0) ≤ s.work := by
  obtain ⟨hentered, hstop⟩ := hclosing
  cases hstep with
  | @queue q l hstep =>
    have hne : l ≠ .commence := by
      rintro rfl
      exact hentered hl
    obtain ⟨hcommencing, hstarting⟩ := h.idle hentered
    obtain ⟨-, -, hthread, hrunning⟩ :=
      BlockingQueue.idle_of_step hstep hne hcommencing hstarting
    have hle : ∀ t ∈ s.threads, (q.workers t).rank ≤ (s.workers t).rank := by
      refine fun t _ => (h.workerStep hstep t).rank_le hstop ?_
      rintro rfl
      cases hthread
    refine ⟨⟨hentered, hrunning hstop⟩, ?_⟩
    simp only [work, hthread, List.append_nil]
    by_cases hworks : Works (.queue l : LifetimeStep τ α)
    · obtain ⟨t, ht⟩ := Option.isSome_iff_exists.mp hworks
      have hmem := (h.worker_of_step hstep ht).1
      have hsum := List.sum_lt_sum _ _ hle ⟨t, hmem, h.rank_lt hstop hstep ht⟩
      rw [if_pos hworks]
      omega
    · have hsum := List.sum_le_sum hle
      rw [if_neg hworks]
      omega
  | destroy hjoin => exact absurd hjoin hentered
  | @join t rest hjoin hexited =>
    refine ⟨⟨nofun, hstop⟩, ?_⟩
    simp only [work, hjoin, Works, Option.getD_some, List.length_cons, if_true]
    omega

/-- As long as a thread is to be joined, it can take a step or be joined. -/
theorem progress (h : s.Joined n) (hclosing : s.Closing) (hnot : ¬ s.Destroyed) :
    ∃ l s', Works l ∧ s.Careful l ∧ Step n s l s' := by
  obtain ⟨hentered, hstop⟩ := hclosing
  obtain ⟨rest, hrest⟩ := Option.ne_none_iff_exists'.mp hentered
  cases rest with
  | nil => exact absurd hrest hnot
  | cons t rest =>
    obtain ⟨gone, hthreads, -⟩ := h.joined _ hrest
    have hmem : t ∈ s.threads := by
      rw [hthreads]
      exact List.mem_append_right _ List.mem_cons_self
    have habsent : s.workers t ≠ .absent := fun ht => (h.threads_iff t).mp ht hmem
    have hawake := BlockingQueue.reachable_awake h.reachable
    cases ht : s.workers t with
    | absent => exact absurd ht habsent
    | looping =>
      exact ⟨.queue (.takeJob t), _, rfl, trivial, .queue (.takeJob ht (.quit hstop))⟩
    | waiting =>
      have hwoken : t ∈ s.cond.woken := by
        refine ((hawake.waits_iff t).mpr ht).resolve_left fun hsleep => ?_
        rw [hawake.stopped hstop] at hsleep
        cases hsleep
      exact ⟨.queue (.retake t), _, rfl, trivial, .queue (.retake hwoken (.quit hstop))⟩
    | taken job =>
      cases job with
      | none => exact ⟨.queue (.skip t), _, rfl, trivial, .queue (.skip ht)⟩
      | some job => exact ⟨.queue (.invoke t), _, rfl, trivial, .queue (.invoke ht)⟩
    | invoking job =>
      exact ⟨.queue (.finish t .returns), _, rfl, trivial, .queue (.finish ht)⟩
    | exited => exact ⟨.join, _, rfl, trivial, .join hrest ht⟩

end Joined

/-! ## Whole runs -/

theorem joined_of_careful (h : ((lifetimeRuns τ α n).under Careful).Reachable s) :
    s.Joined n := by
  refine h.invariant (I := Joined n) ?_ ?_
  · rintro s rfl
    exact .new
  · rintro s l s' - hs ⟨hl, hstep⟩
    exact hs.step hl hstep

theorem closing_run (h : s.Joined n) (hclosing : s.Closing)
    (hrun : ((lifetimeRuns τ α n).under Careful).Run s ls s') :
    s'.Joined n ∧ s'.Closing ∧ s'.work + ls.countP Works ≤ s.work := by
  induction hrun with
  | nil => exact ⟨h, hclosing, le_rfl⟩
  | @cons s u s' l ls hstep _ ih =>
    obtain ⟨hl, hstep⟩ := hstep
    obtain ⟨hnext, hwork⟩ := h.closing_step hclosing hl hstep
    obtain ⟨hjoined, hclosing', hrest⟩ := ih (h.step hl hstep) hnext
    refine ⟨hjoined, hclosing', ?_⟩
    rw [List.countP_cons]
    omega

/-- In every run in which the destructor is entered with no `commence` under way and none is called
    after that, once the queue is stopped as well: the workers and the destructor take a bounded
    number of steps, and as long as it has not joined every thread, one of them can take another.
    When it has, no worker is left and none takes a step any more. -/
theorem ends_of_stopped (τ α : Type*) [DecidableEq τ] (ThreadNum : ℕ) (s s' : QueueLifetime τ α)
    (ls : List (LifetimeStep τ α))
    (h : ((lifetimeRuns τ α ThreadNum).under Careful).Reachable s) (hclosing : s.Closing)
    (hrun : ((lifetimeRuns τ α ThreadNum).under Careful).Run s ls s') :
    ls.countP Works ≤ s.work ∧
      (¬ s'.Destroyed → ∃ l s'', Works l ∧ s'.Careful l ∧ Step ThreadNum s' l s'') ∧
      (s'.Destroyed → s'.Quiet ThreadNum) := by
  obtain ⟨hjoined, hclosing', hwork⟩ := closing_run (joined_of_careful h) hclosing hrun
  exact ⟨(Nat.le_add_left _ _).trans hwork, hjoined.progress hclosing', hjoined.quiet⟩

theorem careful_step (h : ((lifetimeRuns τ α n).under Careful).Reachable s) (hl : s.Careful l)
    (hstep : Step n s l s') : ((lifetimeRuns τ α n).under Careful).Reachable s' :=
  .next l h ⟨hl, hstep⟩

/-- A queue whose one worker has started. -/
def started : QueueLifetime Unit Unit := ⟨.startedBy Unit (), [()], none⟩

theorem started_reachable : (((lifetimeRuns Unit Unit 1).under Careful).Reachable started) := by
  have hcommence := careful_step (l := .queue .commence) (.start rfl)
    (show (new Unit Unit).Careful (.queue .commence) from rfl) (n := 1) (.queue (.commence rfl))
  have hrun := careful_step (l := .queue .run) hcommence trivial (.queue (.run rfl))
  exact careful_step (l := .queue (.start ())) hrun trivial (.queue (.start rfl rfl))

/-- It is stopped, and its destructor entered. -/
def stopping : QueueLifetime Unit Unit := ⟨(BlockingQueue.startedBy Unit ()).stop, [()], some [()]⟩

/-- The worker has found `running_` unset. -/
def exited : QueueLifetime Unit Unit :=
  ⟨(stopping.record (.called ())).setWorker () .exited, [()], some [()]⟩

theorem ends_started : ∃ s s' : QueueLifetime Unit Unit, ∃ ls : List (LifetimeStep Unit Unit),
    s'.Destroyed ∧ ls.countP Works ≤ s.work ∧
      (¬ s'.Destroyed → ∃ l s'', Works l ∧ s'.Careful l ∧ Step 1 s' l s'') ∧
      (s'.Destroyed → s'.Quiet 1) := by
  have hstop := careful_step (l := .queue .stop) started_reachable trivial (.queue .stop)
  have hdestroy := careful_step (l := .destroy) hstop ⟨rfl, rfl⟩ (.destroy rfl)
  have hquit : Step 1 stopping (.queue (.takeJob ())) exited := .queue (.takeJob rfl (.quit rfl))
  have hjoin : Step 1 exited .join { exited with joining := some [] } := .join rfl rfl
  have hrun : ((lifetimeRuns Unit Unit 1).under Careful).Run stopping
      [.queue (.takeJob ()), .join] { exited with joining := some [] } :=
    .cons ⟨trivial, hquit⟩ (.cons ⟨trivial, hjoin⟩ (.nil _))
  exact ⟨stopping, { exited with joining := some [] }, _, rfl,
    ends_of_stopped Unit Unit 1 _ _ _ hdestroy ⟨nofun, rfl⟩ hrun⟩

/-! ## Without a `stop` -/

/-- Workers are there only once the queue runs, and none has left. -/
structure Staying (s : BlockingQueue τ α) : Prop where
  running : s.running = false → s.starting = 0 ∧ ∀ t, s.workers t = .absent
  stays : ∀ t, s.workers t ≠ .exited

theorem Staying.step {q q' : BlockingQueue τ α} {l : QueueStep τ α} (h : Staying q)
    (hwaits : ∀ t, t ∈ q.cond.woken → q.workers t = .waiting) (hl : Unstopped (.queue l))
    (hstep : BlockingQueue.Step n q l q') : Staying q' := by
  have hworker := fun t => BlockingQueue.workerStep hwaits hstep t
  refine ⟨fun hstop => ?_, fun t hexited => ?_⟩
  · have hne : l ≠ .stop := by
      rintro rfl
      exact hl
    obtain ⟨hold, hidle⟩ := BlockingQueue.stopped_of_step hstep hne hstop
    obtain ⟨hstarting, habsent⟩ := h.running hold
    obtain ⟨hstarting', hthread⟩ := hidle hstarting
    refine ⟨hstarting', fun t => (hworker t).absent_iff.mpr ⟨habsent t, ?_⟩⟩
    rw [hthread]
    exact List.not_mem_nil
  · cases hworker t with
    | same hsame hstart hworker => exact h.stays t (hsame ▸ hexited)
    | starts hl hold hnew => cases hnew.symm.trans hexited
    | moves hl' hmoves =>
      rw [hexited] at hmoves
      rcases hmoves.of_exited with hstop | ⟨u, rfl⟩
      · exact hmoves.ne_absent.1 ((h.running hstop).2 t)
      · exact hl

/-- In every run in which nothing stops the queue, neither a `stop` nor a job that throws
    `QueueBreak`, no worker leaves, and the destructor, entered with no `commence` under way and
    none called after that, joins nobody: if a worker was ever started, it does not come to its
    end. -/
theorem joins_nobody (τ α : Type*) [DecidableEq τ] (ThreadNum : ℕ) (s : QueueLifetime τ α)
    (h : ((lifetimeRuns τ α ThreadNum).under fun s l => s.Careful l ∧ Unstopped l).Reachable s) :
    (∀ t, s.workers t ≠ .exited) ∧ ∀ rest, s.joining = some rest → rest = s.threads := by
  have hinv : s.Joined ThreadNum ∧ Staying s.toBlockingQueue := by
    refine h.invariant (I := fun s => s.Joined ThreadNum ∧ Staying s.toBlockingQueue) ?_ ?_
    · rintro s rfl
      exact ⟨.new, fun _ => ⟨rfl, fun _ => rfl⟩, nofun⟩
    · rintro s l s' - ⟨hjoined, hs⟩ ⟨⟨hl, hunstopped⟩, hstep⟩
      refine ⟨hjoined.step hl hstep, ?_⟩
      cases hstep with
      | queue hstep =>
        have hwaits := fun t => BlockingQueue.waiting_of_woken (t := t) hjoined.reachable
        exact hs.step hwaits hunstopped hstep
      | destroy hjoin => exact hs
      | join hjoin hexited => exact hs
  obtain ⟨hjoined, hs⟩ := hinv
  refine ⟨hs.stays, fun rest hrest => ?_⟩
  obtain ⟨gone, hthreads, hgone⟩ := hjoined.joined rest hrest
  cases gone with
  | nil => exact hthreads.symm
  | cons t gone => exact absurd (hgone t List.mem_cons_self) (hs.stays t)

theorem unstopped_step
    (h : ((lifetimeRuns τ α n).under fun s l => s.Careful l ∧ Unstopped l).Reachable s)
    (hl : s.Careful l) (hunstopped : Unstopped l) (hstep : Step n s l s') :
    ((lifetimeRuns τ α n).under fun s l => s.Careful l ∧ Unstopped l).Reachable s' :=
  .next l h ⟨⟨hl, hunstopped⟩, hstep⟩

theorem joins_nobody_started : ∃ s : QueueLifetime Unit Unit, s.joining = some [()] ∧
    (∀ t, s.workers t ≠ .exited) ∧ ∀ rest, s.joining = some rest → rest = s.threads := by
  have hcommence := unstopped_step (l := .queue .commence) (.start rfl)
    (show (new Unit Unit).Careful (.queue .commence) from rfl) trivial (n := 1)
    (.queue (.commence rfl))
  have hrun := unstopped_step (l := .queue .run) hcommence trivial trivial (.queue (.run rfl))
  have hstart := unstopped_step (l := .queue (.start ())) hrun trivial trivial
    (.queue (.start rfl rfl))
  have hdestroy := unstopped_step (l := .destroy) hstart ⟨rfl, rfl⟩ trivial (.destroy rfl)
  exact ⟨_, rfl, joins_nobody Unit Unit 1 _ hdestroy⟩

end QueueLifetime

end Codechiev
