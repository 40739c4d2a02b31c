import Codechiev.Base.BlockingQueue

/-!
# Restarting a `BlockingQueue`

`stop` clears the one flag that tells the workers to leave, and `commence` sets it again without
the mutex and without waiting for them. A worker that was woken by `stop`, or was in a job, and
looks at the flag only then, stays beside the new ones. If each `commence` sets the flag only when
the workers of the earlier ones have left, there are never more than `ThreadNum`
(`restarts_of_careful`). As for every run of the queue, the flag is set before or after the tests of
a `takeJob`, and not between them; with that condition no worker is in `takeJob` then.
-/

namespace Codechiev

/-- The worker was started and has not left. -/
def QueueWorker.Active {α : Type*} : QueueWorker α → Prop
  | absent | exited => False
  | _ => True

namespace BlockingQueue

variable {τ α : Type*}

def Live (s : BlockingQueue τ α) (t : τ) : Prop := (s.workers t).Active

/-- At most `n` workers are there or about to be started. -/
def AtMost (n : ℕ) (s : BlockingQueue τ α) : Prop :=
  ∀ ts : Finset τ, (∀ t ∈ ts, s.Live t) → ts.card + s.starting ≤ n

/-- `commence` sets `running_` only when the workers of earlier calls have left and none of them is
    still to be started. -/
def Careful (s : BlockingQueue τ α) : QueueStep τ α → Prop
  | .run => (∀ t, ¬ s.Live t) ∧ s.starting = 0
  | _ => True

/-- Worker `t` has left, or will leave when it looks at `running_` next. -/
def Leaving (s : BlockingQueue τ α) (t : τ) : Prop :=
  s.workers t = .exited ∨ (s.Live t ∧ s.running = false)

/-- The jobs that `takeJob` returned to worker `t`. -/
def returnedTo [DecidableEq τ] (t : τ) (log : List (QueueEvent τ α)) : List (Option α) :=
  returned (byWorker t log)

variable [DecidableEq τ] {s s' : BlockingQueue τ α} {t u : τ} {n : ℕ} {l : QueueStep τ α}
  {ls : List (QueueStep τ α)} {pc : QueueWorker α}

/-! ## One step -/

theorem live_setWorker_of_ne (h : u ≠ t) : (s.setWorker t pc).Live u ↔ s.Live u := by
  simp only [Live, setWorker_of_ne h]

/-- Where a worker that is there gets to makes no other worker live. -/
theorem live_of_setWorker (ht : s.Live t) (h : (s.setWorker t pc).Live u) : s.Live u := by
  by_cases hu : u = t
  · subst hu
    exact ht
  · exact (live_setWorker_of_ne hu).mp h

omit [DecidableEq τ] in
theorem live_of_eq (ht : s.workers t = pc) (hpc : pc.Active) : s.Live t := by
  rw [Live, ht]
  exact hpc

omit [DecidableEq τ] in
theorem not_live_of_eq (ht : s.workers t = pc) (hpc : ¬ pc.Active) : ¬ s.Live t := by
  rw [Live, ht]
  exact hpc

namespace TakeJob

theorem starting_eq (h : TakeJob t s s') : s'.starting = s.starting := by
  cases h <;> rfl

theorem live (ht : s.Live t) (h : TakeJob t s s') (hu : s'.Live u) : s.Live u := by
  cases h with
  | wait hqueue hrun => exact live_of_setWorker ht hu
  | quit hrun => exact live_of_setWorker ht hu
  | take hqueue hrun hcond => exact live_of_setWorker ht hu

/-- Once the queue is stopped, `takeJob` throws. -/
theorem quits (h : TakeJob t s s') (hstop : s.running = false) :
    s'.workers t = .exited ∧ s'.log = s.log := by
  cases h with
  | wait hqueue hrun => cases hrun.symm.trans hstop
  | quit hrun => exact ⟨setWorker_self, rfl⟩
  | take hqueue hrun hcond => cases hrun.symm.trans hstop

/-- What it leaves alone of another worker. -/
theorem of_ne (hu : u ≠ t) (h : TakeJob t s s') :
    s'.workers u = s.workers u ∧ s'.running = s.running ∧
      returnedTo u s'.log = returnedTo u s.log := by
  cases h with
  | wait hqueue hrun => exact ⟨setWorker_of_ne hu, rfl, rfl⟩
  | quit hrun => exact ⟨setWorker_of_ne hu, rfl, rfl⟩
  | take hqueue hrun hcond =>
    refine ⟨setWorker_of_ne hu, rfl, congrArg returned (byWorker_concat_of_nil ?_)⟩
    simp [byWorker, Ne.symm hu]

end TakeJob

/-- Only a start makes a worker live. -/
theorem live_of_step (hwaits : ∀ t, t ∈ s.cond.woken → s.workers t = .waiting)
    (hstep : Step n s l s') (hu : s'.Live u) : s.Live u ∨ l = .start u := by
  cases hstep with
  | addJob hcond => exact .inl hu
  | stop =>
    simp only [BlockingQueue.stop] at hu
    split at hu
    · exact .inl hu
    · exact .inl hu
  | commence hrun => exact .inl hu
  | run hcall => exact .inl hu
  | @start t k hstart ht =>
    by_cases heq : u = t
    · exact .inr (heq ▸ rfl)
    · exact .inl ((live_setWorker_of_ne heq).mp hu)
  | @takeJob _ t ht htake =>
    have hlive : s.Live t := live_of_eq ht trivial
    exact .inl (htake.live (s := s.record (.called t)) hlive hu)
  | @retake _ t ht htake =>
    have hlive : s.Live t := live_of_eq (hwaits t ht) trivial
    exact .inl (htake.live (s := { s with cond := s.cond.resume t }) hlive hu)
  | wake ht => exact .inl hu
  | invoke ht => exact .inl (live_of_setWorker (live_of_eq ht trivial) hu)
  | skip ht => exact .inl (live_of_setWorker (live_of_eq ht trivial) hu)
  | finish ht => exact .inl (live_of_setWorker (live_of_eq ht trivial) hu)

/-- Apart from `commence` and a start, no step changes how many are still to be started. -/
theorem starting_of_step (hstep : Step n s l s') (hrun : l ≠ .run) (hstart : ∀ t, l ≠ .start t) :
    s'.starting = s.starting := by
  cases hstep with
  | run hcall => exact absurd rfl hrun
  | start hstarting ht => exact absurd rfl (hstart _)
  | stop =>
    simp only [BlockingQueue.stop]
    split <;> rfl
  | takeJob ht htake => exact htake.starting_eq
  | retake ht htake => exact htake.starting_eq
  | _ => rfl

/-! ## How many there are -/

theorem AtMost.step (h : s.AtMost n) (hwaits : ∀ t, t ∈ s.cond.woken → s.workers t = .waiting)
    (hl : s.Careful l) (hstep : Step n s l s') : s'.AtMost n := by
  intro ts hts
  have hlive : ∀ t ∈ ts, s.Live t ∨ l = .start t :=
    fun t ht => live_of_step hwaits hstep (hts t ht)
  by_cases hrun : l = .run
  · subst hrun
    obtain ⟨hnone, hstarting⟩ := hl
    have hempty : ts = ∅ := by
      rw [Finset.eq_empty_iff_forall_notMem]
      intro t ht
      rcases hlive t ht with ht | ht
      · exact hnone t ht
      · cases ht
    cases hstep with
    | run hcall =>
      show ts.card + (s.starting + n) ≤ n
      rw [hempty, hstarting, Finset.card_empty]
      omega
  by_cases hstart : ∃ t, l = .start t
  · obtain ⟨t, rfl⟩ := hstart
    -- the worker that is started was counted among those still to be started
    have hold := h (ts.erase t) fun u hu => by
      obtain ⟨hne, hu⟩ := Finset.mem_erase.mp hu
      rcases hlive u hu with hu | hu
      · exact hu
      · exact absurd (QueueStep.start.inj hu).symm hne
    have hcard := Finset.pred_card_le_card_erase (s := ts) (a := t)
    cases hstep with
    | @start _ k hstarting ht =>
      show ts.card + k ≤ n
      omega
  · push Not at hstart
    rw [starting_of_step hstep hrun hstart]
    exact h ts fun t ht => (hlive t ht).resolve_right (hstart t)

/-- A `commence` that sets the flag earlier brings in too many. -/
theorem not_atMost_of_run (h : ¬ s.Careful .run) (hstep : Step n s .run s') : ¬ s'.AtMost n := by
  intro hatMost
  cases hstep with
  | run hcall =>
    apply h
    refine ⟨fun t ht => ?_, ?_⟩
    · have hone : ({t} : Finset τ).card + (s.starting + n) ≤ n :=
        hatMost {t} fun u hu => (Finset.mem_singleton.mp hu).symm ▸ ht
      rw [Finset.card_singleton] at hone
      omega
    · have hzero : (∅ : Finset τ).card + (s.starting + n) ≤ n := hatMost ∅ fun u hu => by simp at hu
      rw [Finset.card_empty] at hzero
      omega

/-! ## Who leaves -/

theorem returnedTo_concat {log : List (QueueEvent τ α)} {e : QueueEvent τ α}
    (h : returnedTo t [e] = []) : returnedTo t (log ++ [e]) = returnedTo t log := by
  rw [returnedTo, byWorker_concat, returned, List.filterMap_append]
  exact (congrArg _ h).trans (List.append_nil _)

namespace Leaving

omit [DecidableEq τ] in
theorem ne_absent (h : s.Leaving t) : s.workers t ≠ .absent := by
  intro habsent
  rcases h with hexited | ⟨hlive, -⟩
  · cases habsent.symm.trans hexited
  · exact not_live_of_eq habsent id hlive

omit [DecidableEq τ] in
theorem congr (h : s.Leaving t) (hworker : s'.workers t = s.workers t)
    (hrun : s'.running = s.running) : s'.Leaving t := by
  simpa only [Leaving, Live, hworker, hrun] using h

/-- A worker moves on. -/
theorem setWorker (h : s.Leaving t) (hu : s.Live u) (hpc : pc ≠ .absent) :
    (s.setWorker u pc).Leaving t := by
  by_cases heq : t = u
  · subst heq
    obtain hexited | ⟨-, hstop⟩ := h
    · exact absurd hu (not_live_of_eq hexited id)
    · rw [Leaving, Live, setWorker_self]
      cases pc with
      | absent => exact absurd rfl hpc
      | exited => exact .inl rfl
      | _ => exact .inr ⟨trivial, hstop⟩
  · exact h.congr (setWorker_of_ne heq) rfl

/-- A worker runs the loop of `takeJob`. -/
theorem takeJob (h : s.Leaving t) (hu : s.Live u) (htake : TakeJob u s s') :
    s'.Leaving t ∧ returnedTo t s'.log = returnedTo t s.log := by
  by_cases heq : t = u
  · subst heq
    obtain hexited | ⟨-, hstop⟩ := h
    · exact absurd hu (not_live_of_eq hexited id)
    · obtain ⟨hexited, hlog⟩ := htake.quits hstop
      exact ⟨.inl hexited, congrArg _ hlog⟩
  · obtain ⟨hworker, hrun, hlog⟩ := htake.of_ne heq
    exact ⟨h.congr hworker hrun, hlog⟩

theorem step (h : s.Leaving t) (hwaits : ∀ t, t ∈ s.cond.woken → s.workers t = .waiting)
    (hl : s.Careful l) (hstep : Step n s l s') :
    s'.Leaving t ∧ returnedTo t s'.log = returnedTo t s.log := by
  cases hstep with
  | addJob hcond => exact ⟨h.congr rfl rfl, returnedTo_concat rfl⟩
  | stop =>
    simp only [BlockingQueue.stop]
    split
    · exact ⟨h.imp_right fun hlive => ⟨hlive.1, rfl⟩, returnedTo_concat rfl⟩
    · exact ⟨h, rfl⟩
  | commence hrun => exact ⟨h.congr rfl rfl, rfl⟩
  | run hcall =>
    have hexited := h.resolve_right fun hlive => hl.1 t hlive.1
    exact ⟨.inl hexited, returnedTo_concat rfl⟩
  | @start u k hstart hu =>
    have hne : t ≠ u := by
      rintro rfl
      exact h.ne_absent hu
    exact ⟨h.congr (setWorker_of_ne hne) rfl, rfl⟩
  | @takeJob _ u hu htake =>
    have hlive : s.Live u := live_of_eq hu trivial
    have hcalled : (s.record (.called u)).Leaving t := h
    obtain ⟨hleaving, hlog⟩ := hcalled.takeJob hlive htake
    refine ⟨hleaving, hlog.trans (returnedTo_concat ?_)⟩
    by_cases heq : u = t <;> simp [returnedTo, byWorker, returned, heq]
  | @retake _ u hu htake =>
    have hlive : s.Live u := live_of_eq (hwaits u hu) trivial
    exact takeJob (s := { s with cond := s.cond.resume u }) h hlive htake
  | wake hu => exact ⟨h.congr rfl rfl, rfl⟩
  | @invoke u job hu =>
    have hlive : s.Live u := live_of_eq hu trivial
    refine ⟨(h.setWorker hlive (by simp)).congr rfl rfl, returnedTo_concat ?_⟩
    by_cases heq : u = t <;> simp [returnedTo, byWorker, returned, heq]
  | skip hu => exact ⟨h.setWorker (live_of_eq hu trivial) (by simp), rfl⟩
  | @finish u job ended hu =>
    refine ⟨h.setWorker (live_of_eq hu trivial) ?_, rfl⟩
    cases ended <;> simp [afterJob]

end Leaving

/-! ## Whole runs -/

theorem waiting_of_woken (h : (queueRuns τ α n).Reachable s) (ht : t ∈ s.cond.woken) :
    s.workers t = .waiting :=
  ((reachable_awake h).waits_iff t).mp (.inr ht)

theorem atMost_of_careful (h : ((queueRuns τ α n).under Careful).Reachable s) : s.AtMost n := by
  refine h.invariant (I := AtMost n) ?_ ?_
  · rintro s rfl ts hts
    have hempty : ts = ∅ := by
      rw [Finset.eq_empty_iff_forall_notMem]
      exact fun t ht => hts t ht
    rw [hempty]
    exact Nat.zero_le _
  · rintro s l s' hreach hs ⟨hl, hstep⟩
    exact hs.step (fun _ => waiting_of_woken hreach.of_under) hl hstep

/-- What a careful run does about a worker that is leaving. -/
theorem leaving_of_run (hreach : (queueRuns τ α n).Reachable s) (h : s.Leaving t)
    (hrun : ((queueRuns τ α n).under Careful).Run s ls s') :
    (queueRuns τ α n).Reachable s' ∧ s'.Leaving t ∧
      returnedTo t s'.log = returnedTo t s.log := by
  induction hrun with
  | nil => exact ⟨hreach, h, rfl⟩
  | cons hstep _ ih =>
    obtain ⟨hl, hstep⟩ := hstep
    obtain ⟨hnext, hlog⟩ := h.step (fun _ => waiting_of_woken hreach) hl hstep
    obtain ⟨hreach', hleaving, hlog'⟩ := ih (.next _ hreach hstep) hnext
    exact ⟨hreach', hleaving, hlog'.trans hlog⟩

/-- A worker that is leaving is not asleep, and leaves when it takes the mutex. -/
theorem Leaving.quits (h : s.Leaving t) (hreach : (queueRuns τ α n).Reachable s) :
    t ∉ s.cond.sleeping ∧ ∀ l s', l = .takeJob t ∨ l = .retake t → Step n s l s' →
      s'.workers t = .exited := by
  have hawake := reachable_awake hreach
  rcases h with hexited | ⟨-, hstop⟩
  · have hout : ¬ s.cond.Waits t := by
      rw [hawake.waits_iff, hexited]
      simp
    refine ⟨fun hsleep => hout (.inl hsleep), ?_⟩
    rintro l s' (rfl | rfl) hstep
    · cases hstep with
      | takeJob ht htake => cases hexited.symm.trans ht
    · cases hstep with
      | retake ht htake => exact absurd (.inr ht) hout
  · refine ⟨by simp [hawake.stopped hstop], ?_⟩
    rintro l s' (rfl | rfl) hstep
    · cases hstep with
      | takeJob ht htake => exact (htake.quits hstop).1
    · cases hstep with
      | retake ht htake => exact (htake.quits hstop).1

/-- In every run in which each `commence` sets `running_` only when the earlier workers have left,
    at most `ThreadNum` are there or about to be started. A worker that is there when a `stop` takes
    effect is given no job in any such run from then on, is not left asleep, and leaves when it
    looks at the flag. The first `commence` that does not wait for them ends that. -/
theorem restarts_of_careful (τ α : Type*) [DecidableEq τ] (ThreadNum : ℕ) (s : BlockingQueue τ α)
    (h : ((queueRuns τ α ThreadNum).under Careful).Reachable s) :
    s.AtMost ThreadNum ∧
      (∀ t, s.running = true → s.Live t →
        ∀ ls s', ((queueRuns τ α ThreadNum).under Careful).Run s.stop ls s' →
          returnedTo t s'.log = returnedTo t s.log ∧ t ∉ s'.cond.sleeping ∧
            ∀ l s'', l = .takeJob t ∨ l = .retake t → Step ThreadNum s' l s'' →
              s''.workers t = .exited) ∧
      ∀ s', Step ThreadNum s .run s' → ¬ s.Careful .run → ¬ s'.AtMost ThreadNum := by
  refine ⟨atMost_of_careful h, ?_, fun s' hstep hl => not_atMost_of_run hl hstep⟩
  intro t hrunning hlive ls s' hrun
  have hstopped : (queueRuns τ α ThreadNum).Reachable s.stop := .next .stop h.of_under .stop
  have hstop : s.stop.Leaving t ∧ returnedTo t s.stop.log = returnedTo t s.log := by
    rw [BlockingQueue.stop, if_pos hrunning]
    exact ⟨.inr ⟨hlive, rfl⟩, returnedTo_concat rfl⟩
  obtain ⟨hreach, hleaving, hlog⟩ := leaving_of_run hstopped hstop.1 hrun
  exact ⟨hlog.trans hstop.2, hleaving.quits hreach⟩

/-- A queue for one worker, which has started. -/
def startedBy (α : Type*) (t : τ) : BlockingQueue τ α :=
  let s := { BlockingQueue.new τ α with running := true, starting := 1 }.record .commenced
  { s.setWorker t .looping with starting := 0 }

theorem startedBy_careful (α : Type*) (t : τ) :
    ((queueRuns τ α 1).under Careful).Reachable (startedBy α t) := by
  have hcommence : Step 1 (new τ α) .commence { new τ α with commencing := 1 } := .commence rfl
  have hrun : Step 1 _ .run _ := .run (s := { new τ α with commencing := 1 }) rfl
  have hstart : Step 1 _ (.start t) (startedBy α t) := .start rfl rfl
  have hcareful : Careful { new τ α with commencing := 1 } .run := ⟨fun _ hlive => hlive, rfl⟩
  have hreach : ((queueRuns τ α 1).under Careful).Reachable _ :=
    .next .commence (.start rfl) ⟨trivial, hcommence⟩
  exact .next (.start t) (.next .run hreach ⟨hcareful, hrun⟩) ⟨trivial, hstart⟩

theorem careful_step (h : ((queueRuns τ α n).under Careful).Reachable s) (hl : s.Careful l)
    (hstep : Step n s l s') : ((queueRuns τ α n).under Careful).Reachable s' :=
  .next l h ⟨hl, hstep⟩

/-- The first worker leaves after a `stop`, and of two calls of `commence` one has started a
    second worker. -/
theorem secondStarted_careful : ∃ s : BlockingQueue Bool Unit,
    ((queueRuns Bool Unit 1).under Careful).Reachable s ∧ s.running = true ∧
      s.workers false = .exited ∧ s.workers true = .looping ∧ s.commencing = 1 := by
  have hstop := careful_step (l := .stop) (startedBy_careful Unit false) trivial .stop
  have hleave := careful_step (l := .takeJob false) hstop trivial (.takeJob rfl (.quit rfl))
  have hfirst := careful_step (l := .commence) hleave trivial (.commence rfl)
  have hsecond := careful_step (l := .commence) hfirst trivial (.commence rfl)
  have hrun := careful_step (l := .run) hsecond ⟨fun t hlive => ?_, rfl⟩ (.run (n := 1) rfl)
  · exact ⟨_, careful_step (l := .start true) hrun trivial (.start (n := 0) rfl rfl), rfl, rfl,
      rfl, rfl⟩
  · cases t with
    | false => exact hlive
    | true => exact hlive

/-- The second worker is there, and one call of `commence` is still to set `running_`. -/
theorem restarts_second : ∃ s : BlockingQueue Bool Unit,
    (s.running = true ∧ s.workers false = .exited ∧ s.workers true = .looping ∧
      s.commencing = 1) ∧
    s.AtMost 1 ∧
      (∀ t, s.running = true → s.Live t →
        ∀ ls s', ((queueRuns Bool Unit 1).under Careful).Run s.stop ls s' →
          returnedTo t s'.log = returnedTo t s.log ∧ t ∉ s'.cond.sleeping ∧
            ∀ l s'', l = .takeJob t ∨ l = .retake t → Step 1 s' l s'' →
              s''.workers t = .exited) ∧
      ∀ s', Step 1 s .run s' → ¬ s.Careful .run → ¬ s'.AtMost 1 := by
  obtain ⟨s, hreach, hstate⟩ := secondStarted_careful
  exact ⟨s, hstate, restarts_of_careful Bool Unit 1 s hreach⟩

/-- The queue is stopped and started again before the worker has looked at the flag. -/
def restarted : BlockingQueue Bool Unit :=
  let s := { (startedBy Unit false).stop with running := true, starting := 1 }.record .commenced
  { s.setWorker true .looping with starting := 0 }

theorem restarted_run : (queueRuns Bool Unit 1).Run (startedBy Unit false).stop
    [.commence, .run, .start true] restarted := by
  have hcommence : Step 1 (startedBy Unit false).stop .commence
      { (startedBy Unit false).stop with commencing := 1 } := .commence rfl
  have hrun : Step 1 _ .run _ :=
    .run (s := { (startedBy Unit false).stop with commencing := 1 }) rfl
  have hstart : Step 1 _ (.start true) restarted := .start rfl rfl
  exact .cons hcommence (.cons hrun (.cons hstart (.nil _)))

/-- The old worker takes the next job. -/
theorem restarted_takes : ∃ s,
    (queueRuns Bool Unit 1).Run restarted [.addJob (some ()), .takeJob false] s ∧
      returnedTo false s.log = [some ()] := by
  have hadd : Step 1 restarted (.addJob (some ()))
      ({ restarted with queue := [some ()] }.record (.added (some ()))) := .addJob (.lost rfl)
  have hbody : TakeJob false
      (({ restarted with queue := [some ()] }.record (.added (some ()))).record (.called false))
      _ := .take rfl rfl (by rw [if_pos rfl])
  exact ⟨_, .cons hadd (.cons (.takeJob rfl hbody) (.nil _)), rfl⟩

/-- Two workers are there, and the one from before the `stop` takes a job. -/
theorem restart_keeps_worker :
    (¬ ∀ s : BlockingQueue Bool Unit, (queueRuns Bool Unit 1).Reachable s → s.AtMost 1) ∧
      ¬ ∀ (s : BlockingQueue Bool Unit) (t : Bool), (queueRuns Bool Unit 1).Reachable s →
        s.running = true → s.Live t → ∀ ls s', (queueRuns Bool Unit 1).Run s.stop ls s' →
          returnedTo t s'.log = returnedTo t s.log := by
  have hstarted := (startedBy_careful Unit false).of_under
  constructor
  · intro h
    have hstopped : (queueRuns Bool Unit 1).Reachable (startedBy Unit false).stop :=
      .next .stop hstarted .stop
    have hworkers : restarted.workers = fun _ => .looping := by
      funext t
      cases t <;> rfl
    have htwo := h restarted (hstopped.run restarted_run) {false, true}
      fun t _ => live_of_eq (congrFun hworkers t) trivial
    revert htwo
    decide
  · intro h
    obtain ⟨s, htakes, hlog⟩ := restarted_takes
    have hworker : (startedBy Unit false).workers false = .looping := rfl
    have hsame := h _ false hstarted rfl (live_of_eq hworker trivial) _ s
      (restarted_run.append htakes)
    rw [hlog] at hsame
    cases hsame

end BlockingQueue

end Codechiev
