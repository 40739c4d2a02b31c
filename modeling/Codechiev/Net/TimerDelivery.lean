import Codechiev.Net.TimerQueue

/-!
# What a `TimerQueue` delivers

Every task given to `addTask` is started once, or waits in the queue or in the batch of `expire`,
and none is started more than the tolerance before its expiry. A call of `expire` takes the longest
prefix of the queue that is due, starts it in the order of the queue, and leaves the timer armed for
the first task that remains.
-/

namespace Codechiev

namespace TimerRun

variable {α : Type*} {s s' t : TimerRun α}

/-- The order of the queue: by expiry, and by the `addTask` call that brought the task. -/
def Before (x y : TimedTask α) : Prop := x.1 < y.1 ∨ x.1 = y.1 ∧ x.2.1 < y.2.1

/-- The step does not set the timer: it is neither an addition that arms it nor a call of
    `expire`. -/
def Quiet (s : TimerRun α) : TimerStep α → Prop
  | .addTask expired _ => s.queue.Joins expired ∨ TimerQueue.Due expired s.now
  | .expire _ => False
  | .tick _ | .fire | .runNext => True

/-- The timer is armed for a time, or has fired since. -/
def ArmedFor (s : TimerRun α) (millis : ℤ) : Prop :=
  s.queue.timer = .armed millis ∨ s.queue.timer = .fired ∧ millis ≤ s.now

/-- The step is not another call of `expire`. -/
def SameCall (_ : TimerRun α) : TimerStep α → Prop
  | .expire _ => False
  | .tick _ | .addTask _ _ | .fire | .runNext => True

/-- Between `s` and `t` the batch lost its first tasks, and they were started in that order. -/
def Starts (s t : TimerRun α) : Prop :=
  ∃ ran log, s.batch = ran ++ t.batch ∧ t.started = s.started ++ log ∧
    ran.Sublist (log.map Prod.fst)

/-- What a call of `expire` that samples these times does to the queue it finds in `s`. -/
structure Expires (s : TimerRun α) (samples : List ℕ) (s' : TimerRun α) : Prop where
  /-- It takes a prefix of the queue. -/
  entries : s.queue.tasks.entries = s'.batch ++ s'.queue.tasks.entries
  /-- The tasks it takes are due at the times sampled for them. -/
  due : List.Forall₂ (fun e now => TimerQueue.Due e.1 now) s'.batch
    (samples.take s'.batch.length)
  /-- The first task it leaves was not due at the time sampled for it. -/
  longest : ∀ e rest, s'.queue.tasks.entries = e :: rest →
    ∃ now, samples[s'.batch.length]? = some now ∧ ¬ TimerQueue.Due e.1 now
  /-- The tasks it takes are in order. -/
  ordered : s'.batch.Pairwise Before
  /-- Until the next call they are started in that order. -/
  starts : ∀ ls t, ((timerRuns α).under SameCall).Run s' ls t → s'.Starts t
  /-- The timer is armed for the first task it leaves. -/
  armed : ∀ e rest, s'.queue.tasks.entries = e :: rest → s'.queue.timer = .armed e.1
  /-- It stays so until it fires or is set again. -/
  stays : ∀ e rest, s'.queue.tasks.entries = e :: rest →
    ∀ ls t, ((timerRuns α).under Quiet).Run s' ls t → t.ArmedFor e.1

/-- The invariant of a run. -/
structure Delivers (s : TimerRun α) : Prop where
  conserved : s.given.Perm (s.started.map Prod.fst ++ (s.queue.tasks.entries ++ s.batch))
  ordered : s.queue.tasks.entries.Pairwise Before
  numbered : ∀ x ∈ s.queue.tasks.entries, x.2.1 < s.given.length
  batch_due : ∀ x ∈ s.batch, TimerQueue.Due x.1 s.now
  started_due : ∀ x ∈ s.started, TimerQueue.Due x.1.1 x.2

/-! ## Steps -/

theorem ArmedFor.step {millis : ℤ} {l : TimerStep α} (h : s.ArmedFor millis) (hl : s.Quiet l)
    (hstep : Step s l s') : s'.ArmedFor millis := by
  cases hstep with
  | tick =>
    rcases h with h | ⟨hfired, hle⟩
    · exact .inl h
    · exact .inr ⟨hfired, hle.trans (by exact_mod_cast Nat.le_add_right _ _)⟩
  | @addTask expired task =>
    have htimer : (s.addTask expired task).queue.timer = s.queue.timer := by
      rcases s.queue.addTask_cases s.now expired (s.given.length, task) with
        ⟨-, heq⟩ | ⟨-, -, heq⟩ | ⟨hjoins, hdue, -⟩
      · simp only [TimerRun.addTask, heq, TimerQueue.insertTask]
      · simp only [TimerRun.addTask, heq]
      · exact (hl.elim hjoins hdue).elim
    exact h.imp htimer.trans fun hfired => ⟨htimer.trans hfired.1, hfired.2⟩
  | fire harmed hdue =>
    rcases h with h | ⟨h, -⟩
    · obtain rfl := TimerFd.armed.inj (harmed.symm.trans h)
      exact .inr ⟨rfl, hdue⟩
    · cases harmed.symm.trans h
  | expire => exact hl.elim
  | runNext => exact h

theorem Starts.refl (s : TimerRun α) : s.Starts s := ⟨[], [], by simp⟩

/-- One step that is not a call of `expire`. -/
theorem Starts.step {l : TimerStep α} (h : t.Starts s) (hl : s.SameCall l)
    (hstep : Step s l s') : t.Starts s' := by
  obtain ⟨ran, log, hbatch, hstarted, hran⟩ := h
  cases hstep with
  | tick => exact ⟨ran, log, hbatch, hstarted, hran⟩
  | @addTask expired task =>
    obtain ⟨more, hmore⟩ : ∃ more, (s.addTask expired task).started = s.started ++ more :=
      ⟨_, rfl⟩
    refine ⟨ran, log ++ more, hbatch, by rw [hmore, hstarted, List.append_assoc], ?_⟩
    rw [List.map_append]
    exact hran.trans (List.sublist_append_left _ _)
  | fire => exact ⟨ran, log, hbatch, hstarted, hran⟩
  | expire => exact hl.elim
  | @runNext x rest hnext =>
    refine ⟨ran ++ [x], log ++ [(x, s.now)], ?_, ?_, ?_⟩
    · rw [hbatch, hnext, List.append_assoc, List.singleton_append]
    · simp only [hstarted, List.append_assoc]
    · rw [List.map_append]
      exact hran.append (List.Sublist.refl _)

/-- What an addition does to the queue and the record of starts. -/
theorem addTask_spec (s : TimerRun α) (expired : ℤ) (task : α) :
    ((s.addTask expired task).queue.tasks = s.queue.tasks.insert expired (s.given.length, task) ∧
        (s.addTask expired task).started = s.started) ∨
      ((s.addTask expired task).queue.tasks = s.queue.tasks ∧ TimerQueue.Due expired s.now ∧
        (s.addTask expired task).started =
          s.started ++ [((expired, s.given.length, task), s.now)]) := by
  rcases s.queue.addTask_cases s.now expired (s.given.length, task) with
    ⟨-, heq⟩ | ⟨-, hdue, heq⟩ | ⟨-, -, heq⟩
  · simp [TimerRun.addTask, heq, TimerQueue.insertTask]
  · simp [TimerRun.addTask, heq, hdue]
  · simp [TimerRun.addTask, heq, TimerQueue.insertAndArm]

theorem Delivers.addTask {expired : ℤ} {task : α} (h : s.Delivers) :
    (s.addTask expired task).Delivers := by
  have hgiven : (s.addTask expired task).given.Perm
      ((expired, s.given.length, task) :: s.given) := List.perm_append_comm
  have hlength : (s.addTask expired task).given.length = s.given.length + 1 :=
    List.length_append
  have hconserved := h.conserved
  rcases s.addTask_spec expired task with ⟨htasks, hstarted⟩ | ⟨htasks, hdue, hstarted⟩
  · refine ⟨?_, ?_, ?_, h.batch_due, hstarted ▸ h.started_due⟩
    · rw [htasks, hstarted]
      refine hgiven.trans ((hconserved.cons _).trans ?_)
      refine List.perm_middle.symm.trans (List.Perm.append_left _ ?_)
      exact ((s.queue.tasks.insert_perm expired (s.given.length, task)).append_right _).symm
    · -- tasks with the same expiry were brought by earlier calls, and stand in front
      rw [htasks]
      refine Multimap.pairwise_insert h.ordered (fun y hy hle => ?_) fun y _ hlt => .inl hlt
      exact hle.lt_or_eq.imp_right fun heq => ⟨heq, h.numbered y hy⟩
    · intro x hx
      rw [htasks, Multimap.mem_insert] at hx
      rw [hlength]
      rcases hx with rfl | hx
      · exact Nat.lt_succ_self _
      · exact (h.numbered x hx).trans (Nat.lt_succ_self _)
  · refine ⟨?_, htasks ▸ h.ordered, ?_, h.batch_due, ?_⟩
    · rw [htasks, hstarted, List.map_append, List.append_assoc]
      exact hgiven.trans ((hconserved.cons _).trans List.perm_middle.symm)
    · intro x hx
      rw [htasks] at hx
      rw [hlength]
      exact (h.numbered x hx).trans (Nat.lt_succ_self _)
    · rw [hstarted, List.forall_mem_append]
      exact ⟨h.started_due, by simpa using hdue⟩

theorem Delivers.expire {samples : List ℕ} {now : ℕ} {batch : List (TimedTask α)}
    {q : TimerQueue (ℕ × α)} (h : s.Delivers) (hbatch : s.batch = [])
    (hclock : (s.now :: samples ++ [now]).Pairwise (· ≤ ·))
    (hloop : { s.queue with timer := s.queue.timer.read }.expireLoop samples = some (batch, q)) :
    Delivers { s with now := now, queue := q, batch := batch } := by
  obtain ⟨hfront, hdue, -⟩ := TimerQueue.expireLoop_spec hloop
  have hlate : ∀ t ∈ samples, t ≤ now := fun t ht =>
    (List.pairwise_append.mp hclock).2.2 t (List.mem_cons_of_mem _ ht) now List.mem_cons_self
  have hconserved := h.conserved
  have hordered := h.ordered
  have hnumbered := h.numbered
  simp only at hfront
  rw [hfront] at hconserved hordered hnumbered
  refine ⟨?_, (List.pairwise_append.mp hordered).2.1,
    fun x hx => hnumbered x (List.mem_append_right _ hx), ?_, h.started_due⟩
  · rw [hbatch, List.append_nil] at hconserved
    exact hconserved.trans (List.Perm.append_left _ List.perm_append_comm)
  · exact TimerQueue.due_of_samples hdue fun t ht => hlate t (List.mem_of_mem_take ht)

theorem Delivers.step {l : TimerStep α} (h : s.Delivers) (hstep : Step s l s') :
    s'.Delivers := by
  cases hstep with
  | tick => exact { h with batch_due := fun x hx => (h.batch_due x hx).mono (Nat.le_add_right _ _) }
  | addTask => exact h.addTask
  | fire => exact { h with }
  | expire hbatch hclock hloop => exact h.expire hbatch hclock hloop
  | @runNext x rest hnext =>
    have hconserved := h.conserved
    have hdue := h.batch_due
    rw [hnext] at hconserved hdue
    refine { h with
      conserved := ?_
      batch_due := (List.forall_mem_cons.mp hdue).2
      started_due := ?_ }
    · rw [List.map_append, List.append_assoc]
      refine hconserved.trans (List.Perm.append_left _ ?_)
      exact List.perm_middle
    · rw [List.forall_mem_append]
      exact ⟨h.started_due, by simpa using hdue x List.mem_cons_self⟩

/-- A call of `expire`. -/
theorem Delivers.expires {samples : List ℕ} (h : s.Delivers)
    (hstep : Step s (.expire samples) s') : s.Expires samples s' := by
  cases hstep with
  | @expire _ _ batch q hbatch hclock hloop =>
    obtain ⟨hfront, hdue, hend⟩ := TimerQueue.expireLoop_spec hloop
    have hordered := h.ordered
    simp only at hfront
    rw [hfront] at hordered
    have hleft : ∀ e rest, q.tasks.entries = e :: rest → q.timer = .armed e.1 ∧
        ∃ now, samples[batch.length]? = some now ∧ ¬ TimerQueue.Due e.1 now := by
      intro e rest hrest
      rcases hend with ⟨hempty, -⟩ | ⟨e', rest', now, hfirst, hsample, hlate, htimer⟩
      · exact absurd (hrest.symm.trans hempty) (List.cons_ne_nil _ _)
      · obtain ⟨rfl, -⟩ := List.cons.inj (hrest.symm.trans hfirst)
        exact ⟨htimer, now, hsample, hlate⟩
    refine ⟨hfront, hdue, fun e rest hrest => (hleft e rest hrest).2,
      (List.pairwise_append.mp hordered).1, fun ls t hrun => ?_,
      fun e rest hrest => (hleft e rest hrest).1, fun e rest hrest ls t hrun => ?_⟩
    · refine hrun.preserves (I := Starts _) ?_ (.refl _)
      rintro s l s' hs ⟨hl, hst⟩
      exact hs.step hl hst
    · refine hrun.preserves (I := fun t => t.ArmedFor e.1) ?_ (.inl (hleft e rest hrest).1)
      rintro s l s' hs ⟨hl, hst⟩
      exact hs.step hl hst

/-- In every run of `addTask` and `expire`, at every point: the tasks given to `addTask` are those
    started, those in the queue and those in the batch of `expire`; no task was started the
    tolerance or more before its expiry; and each call of `expire` takes the longest prefix of the
    queue that is due, starts it in order, and leaves the timer armed for the first task that
    remains. The code does this for expiries and clock readings `InRange`. -/
theorem delivers_exactly_once (α : Type*) (s : TimerRun α) (h : (timerRuns α).Reachable s) :
    s.given.Perm (s.started.map Prod.fst ++ (s.queue.tasks.entries ++ s.batch)) ∧
      (∀ x ∈ s.started, x.1.1 - x.2 < TIMER_ACCURACY) ∧
      ∀ (samples : List ℕ) (s' : TimerRun α),
        Step s (.expire samples) s' → s.Expires samples s' := by
  have hdelivers : s.Delivers := by
    refine h.invariant (I := Delivers) ?_ fun s l s' _ hs hstep => hs.step hstep
    rintro s ⟨now, rfl⟩
    exact ⟨List.Perm.nil, .nil, nofun, nofun, nofun⟩
  exact ⟨hdelivers.conserved, hdelivers.started_due, fun samples s' => hdelivers.expires⟩

/-- The tasks of `chain`, for 71 and 100, at time 60. -/
def chainAtSixty : TimerRun Unit := { chain with now := 60 }

/-- The call takes the task for 71, and leaves the timer armed for 100. -/
theorem delivers_chain :
    chainAtSixty.given.Perm [(71, 1, ()), (100, 0, ())] ∧
      ∃ s', Step chainAtSixty (.expire [60, 60]) s' ∧ chainAtSixty.Expires [60, 60] s' ∧
        s'.batch = [(71, 1, ())] ∧ s'.queue.timer = .armed 100 := by
  have hreach : (timerRuns Unit).Reachable chainAtSixty :=
    .next (.tick 60) chain_reachable.of_under .tick
  obtain ⟨hgiven, -, hexpires⟩ := delivers_exactly_once Unit chainAtSixty hreach
  have hstep : Step chainAtSixty (.expire [60, 60]) _ :=
    .expire rfl (show [60, 60, 60, 60].Pairwise (· ≤ ·) by decide) rfl
  exact ⟨hgiven, _, hstep, hexpires _ _ hstep, rfl, rfl⟩

end TimerRun

end Codechiev
