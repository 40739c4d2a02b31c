import Codechiev.Net.Channel

/-!
# Dispatch in `net::Scheduler`

`pollEvent` works through a batch of channels that `poll` filled before any callback ran. A channel
is part of its timer, and `timers_` owns the timer: when a callback calls `removeTimer` on a timer
later in the batch, `pollEvent` goes on to read a channel that is gone, and when it removes its own
timer, the callback that is running goes with it (`survives_iff`).

The epoll set plays no part in this and is left out, and with it `setTimer`.
-/

namespace Codechiev

/-- `timers_`. The objects from `next` on have not been made yet. A timer is registered under its
    own descriptor only. -/
structure Scheduler where
  timers : Fd → Option Ptr
  next : Ptr
  made : ∀ {fd p}, timers fd = some p → p < next
  own_fd : ∀ {fd fd' p}, timers fd = some p → timers fd' = some p → fd = fd'

/-- What a callback may do to `timers_`. A timer that is added is a new object. -/
inductive SchedulerCall where
  | removeTimer (fd : Fd)
  | addTimer (fd : Fd)

/-- The turn for one channel: its timer, the descriptor, whether `::read` answered eight bytes, and
    what the callback calls, in order. -/
structure TimerTurn where
  timer : Ptr
  fd : Fd
  full : Bool
  calls : List SchedulerCall

/-- A moment at which an object is in use. -/
structure TimerUse where
  timer : Ptr
  during : Scheduler

namespace Scheduler

/-- `removeTimer(int)`, which drops the only owner of a timer. -/
def removeTimer (s : Scheduler) (fd : Fd) : Scheduler where
  timers := Function.update s.timers fd none
  next := s.next
  made := by
    intro fd' p h
    rw [Function.update_apply] at h
    split at h
    · cases h
    · exact s.made h
  own_fd := by
    intro fd₁ fd₂ p h₁ h₂
    rw [Function.update_apply] at h₁ h₂
    split at h₁
    · cases h₁
    · split at h₂
      · cases h₂
      · exact s.own_fd h₁ h₂

/-- `addTimer(const timer_ptr&)` with a timer that has just been made. -/
def addTimer (s : Scheduler) (fd : Fd) : Scheduler where
  timers := Function.update s.timers fd (some s.next)
  next := s.next + 1
  made := by
    intro fd' p h
    rw [Function.update_apply] at h
    split at h
    · exact Option.some.inj h ▸ Nat.lt_succ_self _
    · exact Nat.lt_succ_of_lt (s.made h)
  own_fd := by
    intro fd₁ fd₂ p h₁ h₂
    rw [Function.update_apply] at h₁ h₂
    split at h₁
    · rename_i heq₁
      split at h₂
      · rename_i heq₂
        exact heq₁.trans heq₂.symm
      · exact absurd (s.made h₂) (Option.some.inj h₁ ▸ Nat.lt_irrefl _)
    · split at h₂
      · exact absurd (s.made h₁) (Option.some.inj h₂ ▸ Nat.lt_irrefl _)
      · exact s.own_fd h₁ h₂

end Scheduler

namespace SchedulerCall

def fd : SchedulerCall → Fd
  | removeTimer fd | addTimer fd => fd

def perform (s : Scheduler) : SchedulerCall → Scheduler
  | removeTimer fd => s.removeTimer fd
  | addTimer fd => s.addTimer fd

end SchedulerCall

namespace Scheduler

/-- The timer is there. -/
def Present (s : Scheduler) (p : Ptr) : Prop := ∃ fd, s.timers fd = some p

/-- `callback()` of a timer: the moments at which it is running, and what is left of `timers_`. -/
def callback (p : Ptr) : Scheduler → List SchedulerCall → List TimerUse × Scheduler
  | s, [] => ([⟨p, s⟩], s)
  | s, c :: rest =>
    let out := callback p (c.perform s) rest
    (⟨p, s⟩ :: out.1, out.2)

/-- `pollEvent(const channel_vec&)`: the moments at which it reads a channel or runs a callback. -/
def pollEvent (s : Scheduler) : List TimerTurn → List TimerUse
  | [] => []
  | t :: rest =>
    ⟨t.timer, s⟩ ::
      if t.full then
        match s.timers t.fd with
        | none => s.pollEvent rest
        | some p =>
          let out := callback p s t.calls
          out.1 ++ out.2.pollEvent rest
      else s.pollEvent rest

/-- Whatever is read or run is there. -/
def Survives (s : Scheduler) (batch : List TimerTurn) : Prop :=
  ∀ use ∈ s.pollEvent batch, use.during.Present use.timer

/-- No callback that is run names the descriptor of its own timer, or of one later in the batch. -/
def Spares : List TimerTurn → Prop
  | [] => True
  | t :: rest => (t.full = true → ∀ c ∈ t.calls, ∀ u ∈ t :: rest, c.fd ≠ u.fd) ∧ Spares rest

/-! ## One call -/

variable {s : Scheduler} {fd : Fd} {p q : Ptr} {c : SchedulerCall} {calls : List SchedulerCall}
  {batch rest : List TimerTurn}

theorem perform_timers_of_ne (h : c.fd ≠ fd) : (c.perform s).timers fd = s.timers fd := by
  cases c <;> exact Function.update_of_ne (Ne.symm h) _ _

theorem next_le_perform (s : Scheduler) (c : SchedulerCall) : s.next ≤ (c.perform s).next := by
  cases c with
  | removeTimer => exact Nat.le_refl _
  | addTimer => exact Nat.le_succ _

/-- Under the descriptor that is named only a new timer can be registered afterwards. -/
theorem eq_next_of_named (h : (c.perform s).timers c.fd = some p) : p = s.next := by
  cases c with
  | removeTimer fd =>
    have hnone : (s.removeTimer fd).timers fd = none := Function.update_self _ _ _
    cases hnone.symm.trans h
  | addTimer fd =>
    have hnew : (s.addTimer fd).timers fd = some s.next := Function.update_self _ _ _
    exact Option.some.inj (h.symm.trans hnew)

/-- An old timer that is there after the call was there before it, under another descriptor. -/
theorem present_perform (hp : p < s.next) (h : (c.perform s).Present p) :
    ∃ fd, fd ≠ c.fd ∧ s.timers fd = some p := by
  obtain ⟨fd, hfd⟩ := h
  by_cases heq : c.fd = fd
  · subst heq
    exact absurd hp (eq_next_of_named hfd ▸ Nat.lt_irrefl _)
  · exact ⟨fd, Ne.symm heq, (perform_timers_of_ne heq).symm.trans hfd⟩

/-- What is gone does not come back. -/
theorem gone_perform (hp : p < s.next) (h : ¬ s.Present p) : ¬ (c.perform s).Present p := by
  intro hafter
  obtain ⟨fd, -, hfd⟩ := present_perform hp hafter
  exact h ⟨fd, hfd⟩

/-- The timer whose descriptor is named is gone. -/
theorem lost_perform (h : s.timers c.fd = some p) : ¬ (c.perform s).Present p := by
  intro hafter
  obtain ⟨fd, hne, hfd⟩ := present_perform (s.made h) hafter
  exact hne (s.own_fd hfd h)

/-! ## One callback -/

theorem next_le_callback (s : Scheduler) (calls : List SchedulerCall) :
    s.next ≤ (callback q s calls).2.next := by
  induction calls generalizing s with
  | nil => exact Nat.le_refl _
  | cons c rest ih => exact (next_le_perform s c).trans (ih _)

theorem gone_callback (hp : p < s.next) (h : ¬ s.Present p) :
    ¬ (callback q s calls).2.Present p := by
  induction calls generalizing s with
  | nil => exact h
  | cons c rest ih => exact ih (hp.trans_le (next_le_perform s c)) (gone_perform hp h)

/-- A timer whose descriptor a callback does not name stays registered. -/
theorem callback_timers_of_ne (h : ∀ c ∈ calls, c.fd ≠ fd) :
    (callback q s calls).2.timers fd = s.timers fd := by
  induction calls generalizing s with
  | nil => rfl
  | cons c rest ih =>
    obtain ⟨hfirst, hrest⟩ := List.forall_mem_cons.mp h
    exact (ih hrest).trans (perform_timers_of_ne hfirst)

/-- One whose descriptor it names is gone at its end. -/
theorem lost_callback (hp : s.timers fd = some p) (hc : c ∈ calls) (h : c.fd = fd) :
    ¬ (callback q s calls).2.Present p := by
  induction calls generalizing s with
  | nil => cases hc
  | cons c' rest ih =>
    by_cases heq : c'.fd = fd
    · subst heq
      have hmade : _ < (c'.perform s).next := (s.made hp).trans_le (next_le_perform s c')
      exact gone_callback (s := c'.perform s) hmade (lost_perform hp)
    · rcases List.mem_cons.mp hc with rfl | hc
      · exact absurd h heq
      · exact ih ((perform_timers_of_ne heq).trans hp) hc

/-- A callback that does not name the descriptor of its timer runs with the timer there. -/
theorem present_callback (hp : s.timers fd = some p) (h : ∀ c ∈ calls, c.fd ≠ fd) :
    ∀ use ∈ (callback p s calls).1, use.during.Present use.timer := by
  induction calls generalizing s with
  | nil =>
    intro use huse
    rw [List.mem_singleton.mp huse]
    exact ⟨fd, hp⟩
  | cons c rest ih =>
    obtain ⟨hfirst, hrest⟩ := List.forall_mem_cons.mp h
    exact List.forall_mem_cons.mpr ⟨⟨fd, hp⟩, ih ((perform_timers_of_ne hfirst).trans hp) hrest⟩

/-- A callback is still running when the last of its calls has returned. -/
theorem last_mem_callback (p : Ptr) (s : Scheduler) (calls : List SchedulerCall) :
    ⟨p, (callback p s calls).2⟩ ∈ (callback p s calls).1 := by
  induction calls generalizing s with
  | nil => exact List.mem_singleton_self _
  | cons c rest ih => exact List.mem_cons_of_mem _ (ih _)

/-! ## One batch -/

/-- `pollEvent` reads a channel of the batch even if its timer is gone. -/
theorem not_survives_of_gone {u : TimerTurn} (hu : u ∈ batch) (hmade : u.timer < s.next)
    (hgone : ¬ s.Present u.timer) : ¬ s.Survives batch := by
  induction batch generalizing s with
  | nil => cases hu
  | cons t rest ih =>
    intro hall
    rcases List.mem_cons.mp hu with rfl | hu
    · exact hgone (hall _ List.mem_cons_self)
    · have hrest : ∀ use ∈ (if t.full then
          match s.timers t.fd with
          | none => s.pollEvent rest
          | some p => (callback p s t.calls).1 ++ (callback p s t.calls).2.pollEvent rest
        else s.pollEvent rest), use.during.Present use.timer :=
        fun use huse => hall use (List.mem_cons_of_mem _ huse)
      split at hrest
      · split at hrest
        · exact ih hu hmade hgone hrest
        · exact ih hu (hmade.trans_le (next_le_callback _ _)) (gone_callback hmade hgone)
            fun use huse => hrest use (List.mem_append_right _ huse)
      · exact ih hu hmade hgone hrest

/-- The first turn, whose timer is registered. -/
theorem survives_cons_iff {t : TimerTurn} (ht : s.timers t.fd = some t.timer) :
    s.Survives (t :: rest) ↔
      if t.full then
        (∀ use ∈ (callback t.timer s t.calls).1, use.during.Present use.timer) ∧
          (callback t.timer s t.calls).2.Survives rest
      else s.Survives rest := by
  rw [Survives, pollEvent, List.forall_mem_cons, ht]
  simp only
  rw [and_iff_right ⟨t.fd, ht⟩]
  split
  · exact List.forall_mem_append
  · rfl

/-- For every set of timers, every batch of channels of registered timers, whatever `::read`
    answers and whatever the callbacks do: `pollEvent` reads and runs only what is there if and only
    if no callback that it runs names the descriptor of its own timer or of one later in the
    batch. -/
theorem survives_iff (s : Scheduler) (batch : List TimerTurn)
    (hbatch : ∀ t ∈ batch, s.timers t.fd = some t.timer) : s.Survives batch ↔ Spares batch := by
  induction batch generalizing s with
  | nil => exact iff_of_true (fun _ h => absurd h List.not_mem_nil) trivial
  | cons t rest ih =>
    obtain ⟨ht, hrest⟩ := List.forall_mem_cons.mp hbatch
    rw [survives_cons_iff ht, Spares]
    split
    · rename_i hfull
      by_cases hspares : ∀ c ∈ t.calls, ∀ u ∈ t :: rest, c.fd ≠ u.fd
      · have hafter : ∀ u ∈ rest, (callback t.timer s t.calls).2.timers u.fd = some u.timer := by
          intro u hu
          have hne : ∀ c ∈ t.calls, c.fd ≠ u.fd :=
            fun c hc => hspares c hc u (List.mem_cons_of_mem _ hu)
          exact (callback_timers_of_ne hne).trans (hrest u hu)
        have hown := present_callback ht fun c hc => hspares c hc t List.mem_cons_self
        rw [and_iff_right hown, ih _ hafter, and_iff_right fun _ => hspares]
      · -- one of the timers that are still in use is gone when the callback ends
        refine iff_of_false ?_ fun h => hspares (h.1 hfull)
        rintro ⟨hown, hlater⟩
        simp only [not_forall, not_not] at hspares
        obtain ⟨c, hc, u, hu, hnamed⟩ := hspares
        have hlost := lost_callback (q := t.timer) (hbatch u hu) hc hnamed
        rcases List.mem_cons.mp hu with rfl | hu
        · exact hlost (hown _ (last_mem_callback _ _ _))
        · exact not_survives_of_gone hu
            ((s.made (hrest u hu)).trans_le (next_le_callback _ _)) hlost hlater
    · rename_i hfull
      rw [ih _ hrest, and_iff_right fun h => absurd h hfull]

/-- The constructor. -/
def new : Scheduler where
  timers := fun _ => none
  next := 0
  made := by
    intro fd p h
    cases h
  own_fd := by
    intro fd fd' p h
    cases h

/-- Two timers, on the descriptors 3 and 4. -/
def twoTimers : Scheduler := (new.addTimer 3).addTimer 4

/-- The callback of the first timer adds a third and removes it again. -/
theorem survives_add : twoTimers.Survives
    [⟨0, 3, true, [.addTimer 5, .removeTimer 5]⟩, ⟨1, 4, true, []⟩] := by
  refine (survives_iff twoTimers _ (by decide)).mpr ?_
  simp [Spares, SchedulerCall.fd]

/-- The first callback removes the second timer, whose channel is read next. -/
theorem reads_removed :
    ¬ ∀ (s : Scheduler) (batch : List TimerTurn),
      (∀ t ∈ batch, s.timers t.fd = some t.timer) → s.Survives batch := by
  intro h
  have hall : twoTimers.Survives [⟨0, 3, true, [.removeTimer 4]⟩, ⟨1, 4, true, []⟩] := by
    apply h
    decide
  have hrest := ((survives_cons_iff (t := ⟨0, 3, true, [.removeTimer 4]⟩) rfl).mp hall).2
  have hsecond : twoTimers.timers 4 = some 1 := rfl
  have hlost : ¬ (callback 0 twoTimers [.removeTimer 4]).2.Present 1 :=
    lost_callback hsecond List.mem_cons_self rfl
  exact not_survives_of_gone List.mem_cons_self (by decide) hlost hrest

end Scheduler

end Codechiev
