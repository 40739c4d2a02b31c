import Codechiev.Library.Transition
import Codechiev.Net.Timer
import Mathlib.Logic.Function.Basic

/-!
# A `TimerQueue` that several threads add to

`addTask` looks at the first task without the mutex and takes the mutex to insert, so these are
steps of their own, and so is the time it samples in between. The thread of the queue waits for the
timer, reads its expiration, and calls `expire`, whose loop holds the mutex while its batch is run
without it. Calls that find the mutex taken wait.

An addition that saw an earlier task relies on the timer being armed for that task. `expire` may
take the task and leave an empty queue before the addition inserts, and then nothing arms the timer
(`insert_strands_task`).
-/

namespace Codechiev

/-- How far a thread is in `addTask`: not in it, past the look that found an earlier task, past the
    look that found none, past the test of the time that found the task not due, or running the
    task. -/
inductive AddCall (α : Type*) where
  | idle
  | joining (expired : ℤ) (task : α)
  | looked (expired : ℤ) (task : α)
  | arming (expired : ℤ) (task : α)
  | running (task : α)

/-- How far the thread of the queue is: waiting for the timer, in `expire` before the mutex, in its
    loop with the tasks taken so far, or past the loop with the tasks still to run. -/
inductive ExpireCall (α : Type*) where
  | waiting
  | called
  | looping (tasks : List α)
  | running (tasks : List α)

/-- The loop of `expire` is still to end. -/
def ExpireCall.Coming {α : Type*} : ExpireCall α → Prop
  | called | looping _ => True
  | waiting | running _ => False

/-- The clock, the queue, and what each thread does. -/
structure SharedTimerQueue (τ α : Type*) where
  now : ℕ
  queue : TimerQueue α
  expire : ExpireCall α
  adding : τ → AddCall α

/-- One step: of the clock, of the thread that is named, of the timer, or of the thread of the
    queue. -/
inductive SharedTimerStep (τ α : Type*) where
  | tick (millis : ℕ)
  | look (t : τ) (expired : ℤ) (task : α)
  | sample (t : τ)
  | insert (t : τ)
  | insertAndArm (t : τ)
  | ran (t : τ)
  | fire
  | read
  | lock
  | turn
  | runNext
  | done

namespace SharedTimerQueue

variable {τ α : Type*}

/-- Thread `t` gets to another point of `addTask`. -/
def setCall [DecidableEq τ] (s : SharedTimerQueue τ α) (t : τ) (call : AddCall α) :
    SharedTimerQueue τ α :=
  { s with adding := Function.update s.adding t call }

/-- The look of `addTask` at `tasks_.begin()`. -/
def look (s : SharedTimerQueue τ α) (expired : ℤ) (task : α) : AddCall α :=
  if s.queue.Joins expired then .joining expired task else .looked expired task

/-- The test of the time in `addTask`. -/
def sample (s : SharedTimerQueue τ α) (expired : ℤ) (task : α) : AddCall α :=
  if TimerQueue.Due expired s.now then .running task else .arming expired task

/-- One turn of the loop of `expire`. -/
def turn (s : SharedTimerQueue τ α) (tasks : List α) : SharedTimerQueue τ α :=
  match s.queue.expireTurn s.now with
  | .drained => { s with expire := .running tasks }
  | .took entry q => { s with queue := q, expire := .looping (tasks ++ [entry.2]) }
  | .rearmed q => { s with queue := q, expire := .running tasks }

/-- `expire` does not hold the mutex. -/
def Unlocked (s : SharedTimerQueue τ α) : Prop := ∀ tasks, s.expire ≠ .looping tasks

/-- The steps. A task that calls `addTask` does so as a thread of its own. -/
inductive Step [DecidableEq τ] :
    SharedTimerQueue τ α → SharedTimerStep τ α → SharedTimerQueue τ α → Prop where
  | tick {s : SharedTimerQueue τ α} {millis : ℕ} :
      Step s (.tick millis) { s with now := s.now + millis }
  | look {s : SharedTimerQueue τ α} {t : τ} {expired : ℤ} {task : α} (ht : s.adding t = .idle) :
      Step s (.look t expired task) (s.setCall t (s.look expired task))
  | sample {s : SharedTimerQueue τ α} {t : τ} {expired : ℤ} {task : α}
      (ht : s.adding t = .looked expired task) :
      Step s (.sample t) (s.setCall t (s.sample expired task))
  | insert {s : SharedTimerQueue τ α} {t : τ} {expired : ℤ} {task : α}
      (ht : s.adding t = .joining expired task) (hlock : s.Unlocked) :
      Step s (.insert t) { s.setCall t .idle with queue := s.queue.insertTask expired task }
  | insertAndArm {s : SharedTimerQueue τ α} {t : τ} {expired : ℤ} {task : α}
      (ht : s.adding t = .arming expired task) (hlock : s.Unlocked) :
      Step s (.insertAndArm t) { s.setCall t .idle with queue := s.queue.insertAndArm expired task }
  | ran {s : SharedTimerQueue τ α} {t : τ} {task : α} (ht : s.adding t = .running task) :
      Step s (.ran t) (s.setCall t .idle)
  | fire {s : SharedTimerQueue τ α} {millis : ℤ} (harmed : s.queue.timer = .armed millis)
      (hdue : millis ≤ s.now) :
      Step s .fire { s with queue := { s.queue with timer := .fired } }
  | read {s : SharedTimerQueue τ α} (hwaiting : s.expire = .waiting)
      (hfired : s.queue.timer = .fired) :
      Step s .read
        { s with queue := { s.queue with timer := s.queue.timer.read }, expire := .called }
  | lock {s : SharedTimerQueue τ α} (hcalled : s.expire = .called) :
      Step s .lock { s with expire := .looping [] }
  | turn {s : SharedTimerQueue τ α} {tasks : List α} (hloop : s.expire = .looping tasks) :
      Step s .turn (s.turn tasks)
  | runNext {s : SharedTimerQueue τ α} {task : α} {tasks : List α}
      (hnext : s.expire = .running (task :: tasks)) :
      Step s .runNext { s with expire := .running tasks }
  | done {s : SharedTimerQueue τ α} (hend : s.expire = .running []) :
      Step s .done { s with expire := .waiting }

/-- The runs of a new queue, from any time on. -/
def sharedTimerRuns (τ α : Type*) [DecidableEq τ] :
    LabelledSystem (SharedTimerQueue τ α) (SharedTimerStep τ α) where
  init s := ∃ now, s = ⟨now, .new, .waiting, fun _ => .idle⟩
  step := Step

/-- No `addTask` and no `expire` is in progress. -/
def AtRest (s : SharedTimerQueue τ α) : Prop := s.expire = .waiting ∧ ∀ t, s.adding t = .idle

/-- When no call is in progress and the queue is not empty, the timer is armed, or has fired with
    its `expire` still to run. -/
def NotStranded (s : SharedTimerQueue τ α) : Prop :=
  s.AtRest → s.queue.tasks.entries ≠ [] → s.queue.timer.Live

/-- The timer is armed or has fired, or the loop of `expire` is still to end. -/
def Served (s : SharedTimerQueue τ α) : Prop := s.queue.timer.Live ∨ s.expire.Coming

/-- An insertion that leaves the timer alone finds the queue not empty, or a timer or an `expire`
    that will see the task. -/
def Careful (s : SharedTimerQueue τ α) : SharedTimerStep τ α → Prop
  | .insert _ => s.queue.tasks.entries ≠ [] ∨ s.Served
  | _ => True

/-- The step is not an insertion that arms the timer. -/
def LeavesTimer (_ : SharedTimerQueue τ α) : SharedTimerStep τ α → Prop
  | .insertAndArm _ => False
  | _ => True

/-- The invariant: a queue that is not empty is served, and the timer is armed for no time that
    disarms it. -/
structure Watched (s : SharedTimerQueue τ α) : Prop where
  served : s.queue.tasks.entries ≠ [] → s.Served
  arming_pos : ∀ t expired task, s.adding t = .arming expired task → 0 < expired

/-- Tasks wait that no timer and no `expire` will see. -/
def Stranded (s : SharedTimerQueue τ α) : Prop := s.queue.tasks.entries ≠ [] ∧ ¬ s.Served

variable {s s' : SharedTimerQueue τ α} {l : SharedTimerStep τ α}

/-! ## What a turn does -/

/-- A turn takes a task and goes on, or ends the loop with the queue empty or the timer armed. -/
theorem turn_spec (s : SharedTimerQueue τ α) (tasks : List α) :
    (s.turn tasks).adding = s.adding ∧
      ((s.turn tasks).queue.tasks.entries = [] ∨ (s.turn tasks).Served) := by
  simp only [turn]
  split
  · rename_i hturn
    exact ⟨rfl, .inl (TimerQueue.expireTurn_drained hturn)⟩
  · exact ⟨rfl, .inr (.inr trivial)⟩
  · rename_i q hturn
    obtain ⟨e, rest, -, -, -, htimer⟩ := TimerQueue.expireTurn_rearmed hturn
    exact ⟨rfl, .inr (.inl (htimer ▸ TimerFd.live_armed _))⟩

/-- With no loop of `expire` to come, it is the timer that serves the queue. -/
theorem Watched.live (h : s.Watched) (hpast : ¬ s.expire.Coming)
    (hne : s.queue.tasks.entries ≠ []) : s.queue.timer.Live := (h.served hne).resolve_right hpast

theorem Watched.notStranded (h : s.Watched) : s.NotStranded := by
  rintro ⟨hwaiting, -⟩ hne
  refine h.live ?_ hne
  rw [hwaiting]
  exact not_false

/-! ## Careful insertions -/

variable [DecidableEq τ]

/-- A thread that moves on in `addTask` and is not about to arm the timer for a time that disarms
    it. -/
theorem Watched.setCall {t : τ} {call : AddCall α} (h : s.Watched)
    (hcall : ∀ expired task, call = .arming expired task → 0 < expired) :
    (s.setCall t call).Watched := by
  refine ⟨h.served, fun u expired task hu => ?_⟩
  simp only [SharedTimerQueue.setCall, Function.update_apply] at hu
  split at hu
  · exact hcall expired task hu
  · exact h.arming_pos u expired task hu

theorem Watched.setIdle {t : τ} (h : s.Watched) : (s.setCall t .idle).Watched := by
  apply h.setCall
  intro expired task heq
  cases heq

theorem Watched.step (h : s.Watched) (hl : s.Careful l) (hstep : Step s l s') : s'.Watched := by
  cases hstep with
  | tick => exact ⟨h.served, h.arming_pos⟩
  | look ht =>
    refine h.setCall fun expired task heq => ?_
    simp only [SharedTimerQueue.look] at heq
    split at heq <;> cases heq
  | sample ht =>
    refine h.setCall fun expired task heq => ?_
    simp only [SharedTimerQueue.sample] at heq
    split at heq
    · cases heq
    · rename_i hdue
      obtain ⟨rfl, rfl⟩ := AddCall.arming.inj heq
      simp only [TimerQueue.Due, TIMER_ACCURACY] at hdue
      omega
  | @insert t expired task ht hlock =>
    have hidle : (s.setCall t .idle).Watched := h.setIdle
    -- what serves the tasks already there serves the new one
    exact ⟨fun _ => hl.elim h.served id, hidle.arming_pos⟩
  | @insertAndArm t expired task ht hlock =>
    have hidle : (s.setCall t .idle).Watched := h.setIdle
    have hpos := h.arming_pos t expired task ht
    have htimer : (s.queue.insertAndArm expired task).timer = .armed expired :=
      TimerFd.expireAt_of_pos _ hpos
    exact ⟨fun _ => .inl (htimer ▸ TimerFd.live_armed _), hidle.arming_pos⟩
  | ran ht => exact h.setIdle
  | fire harmed hdue => exact ⟨fun _ => .inl TimerFd.live_fired, h.arming_pos⟩
  | read hwaiting hfired => exact ⟨fun _ => .inr trivial, h.arming_pos⟩
  | lock hcalled => exact ⟨fun _ => .inr trivial, h.arming_pos⟩
  | @turn tasks hloop =>
    obtain ⟨hadding, hend⟩ := s.turn_spec tasks
    exact ⟨fun hne => hend.resolve_left hne, hadding ▸ h.arming_pos⟩
  | runNext hnext =>
    have hpast : ¬ s.expire.Coming := by rw [hnext]; exact not_false
    exact ⟨fun hne => .inl (h.live hpast hne), h.arming_pos⟩
  | done hend =>
    have hpast : ¬ s.expire.Coming := by rw [hend]; exact not_false
    exact ⟨fun hne => .inl (h.live hpast hne), h.arming_pos⟩

/-! ## Insertions that are not careful -/

theorem stranded_of_insert {t : τ} (hl : ¬ s.Careful (.insert t))
    (hstep : Step s (.insert t) s') : s'.Stranded := by
  cases hstep with
  | insert ht hlock => exact ⟨Multimap.insert_ne_nil _ _ _, fun h => hl (.inr h)⟩

/-- Only an insertion that arms the timer ends it. -/
theorem Stranded.step (h : s.Stranded) (hl : s.LeavesTimer l) (hstep : Step s l s') :
    s'.Stranded := by
  obtain ⟨hne, hserved⟩ := h
  have hoff : s.queue.timer = .disarmed := by
    by_contra hlive
    exact hserved (.inl hlive)
  have hpast : ¬ s.expire.Coming := fun hcoming => hserved (.inr hcoming)
  cases hstep with
  | tick => exact ⟨hne, hserved⟩
  | look ht => exact ⟨hne, hserved⟩
  | sample ht => exact ⟨hne, hserved⟩
  | insert ht hlock => exact ⟨Multimap.insert_ne_nil _ _ _, hserved⟩
  | insertAndArm ht hlock => exact hl.elim
  | ran ht => exact ⟨hne, hserved⟩
  -- a timer that is off does not fire, and `expire` is called only after it has
  | fire harmed hdue => cases hoff.symm.trans harmed
  | read hwaiting hfired => cases hoff.symm.trans hfired
  | lock hcalled =>
    rw [hcalled] at hpast
    exact (hpast trivial).elim
  | turn hloop =>
    rw [hloop] at hpast
    exact (hpast trivial).elim
  | runNext hnext => exact ⟨hne, fun h => hserved (h.imp_right False.elim)⟩
  | done hend => exact ⟨hne, fun h => hserved (h.imp_right False.elim)⟩

/-- In every run in which each insertion that leaves the timer alone finds the queue not empty, or
    a timer or an `expire` that will see the task, no task is stranded. The first insertion that
    does not strands its task, until some insertion arms the timer. The code does this for expiries
    and clock readings `InRange`. -/
theorem notStranded_of_careful (τ α : Type*) [DecidableEq τ] (s : SharedTimerQueue τ α)
    (h : ((sharedTimerRuns τ α).under Careful).Reachable s) :
    s.NotStranded ∧ ∀ (t : τ) (s' : SharedTimerQueue τ α),
      Step s (.insert t) s' → ¬ s.Careful (.insert t) →
      ∀ (ls : List (SharedTimerStep τ α)) (s'' : SharedTimerQueue τ α),
        ((sharedTimerRuns τ α).under LeavesTimer).Run s' ls s'' → s''.AtRest →
          ¬ s''.NotStranded := by
  have hwatched : s.Watched := by
    refine h.invariant (I := Watched) ?_ ?_
    · rintro s ⟨now, rfl⟩
      exact ⟨absurd rfl, nofun⟩
    · rintro s l s' - hs ⟨hl, hstep⟩
      exact hs.step hl hstep
  refine ⟨hwatched.notStranded, fun t s' hstep hl ls s'' hrun hrest hnot => ?_⟩
  obtain ⟨hne, hserved⟩ : s''.Stranded := by
    refine hrun.preserves (I := Stranded) ?_ (stranded_of_insert hl hstep)
    rintro s l s' hs ⟨hl, hst⟩
    exact hs.step hl hst
  exact hserved (.inl (hnot hrest hne))

/-! ## A task that is stranded -/

theorem careful_step (h : ((sharedTimerRuns τ α).under Careful).Reachable s) (hl : s.Careful l)
    (hstep : Step s l s') : ((sharedTimerRuns τ α).under Careful).Reachable s' :=
  .next l h ⟨hl, hstep⟩

/-- At time 100, with the queue empty and the timer read: a thread that looked while the queue had
    a task for 100 is about to insert one for 110. -/
def raced : SharedTimerQueue Unit Unit := ⟨100, .new, .waiting, fun _ => .joining 110 ()⟩

theorem raced_reachable : ((sharedTimerRuns Unit Unit).under Careful).Reachable raced := by
  have hstart : ((sharedTimerRuns Unit Unit).under Careful).Reachable
      ⟨0, .new, .waiting, fun _ => .idle⟩ := .start ⟨0, rfl⟩
  -- a task for 100, then the look for the one for 110
  have hlook := careful_step (l := .look () 100 ()) hstart trivial (.look rfl)
  have hsample := careful_step (l := .sample ()) hlook trivial (.sample rfl)
  have harm := careful_step (l := .insertAndArm ()) hsample trivial (.insertAndArm rfl nofun)
  have hjoin := careful_step (l := .look () 110 ()) harm trivial (.look rfl)
  -- the first task expires
  have htick := careful_step (l := .tick 100) hjoin trivial .tick
  have hfire := careful_step (l := .fire) htick trivial (.fire rfl (by decide))
  have hread := careful_step (l := .read) hfire trivial (.read rfl rfl)
  have hlock := careful_step (l := .lock) hread trivial (.lock rfl)
  have htook := careful_step (l := .turn) hlock trivial (.turn rfl)
  have hempty := careful_step (l := .turn) htook trivial (.turn rfl)
  have hran := careful_step (l := .runNext) hempty trivial (.runNext rfl)
  exact careful_step (l := .done) hran trivial (.done rfl)

/-- The insertion leaves one task, no call in progress, and the timer off. -/
theorem insert_strands_task :
    ¬ ∀ s : SharedTimerQueue Unit Unit,
      (sharedTimerRuns Unit Unit).Reachable s → s.NotStranded := by
  intro h
  have hinsert : Step raced (.insert ()) _ := .insert rfl nofun
  exact h _ (.next _ raced_reachable.of_under hinsert) ⟨rfl, fun _ => rfl⟩ nofun rfl

theorem notStranded_raced :
    raced.NotStranded ∧
      ∀ s', Step raced (.insert ()) s' → s'.AtRest → ¬ s'.NotStranded := by
  obtain ⟨hnot, hstrands⟩ := notStranded_of_careful Unit Unit raced raced_reachable
  have hl : ¬ raced.Careful (.insert ()) := by
    rintro (hne | hlive | hcoming)
    · exact hne rfl
    · exact hlive rfl
    · exact hcoming
  exact ⟨hnot, fun s' hstep hrest => hstrands () s' hstep hl [] s' (.nil s') hrest⟩

end SharedTimerQueue

end Codechiev
