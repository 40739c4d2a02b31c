import Codechiev.Library.Transition
import Codechiev.Net.Channel
import Mathlib.Data.List.Nodup

/-!
# The timers of a `net::Scheduler`

A `Timer` is owned by the `timer_ptr`s to it: those of its users, and the one in `timers_`. The last
owner that lets go of it destroys it, and the destructor closes its descriptor. epoll holds bare
pointers to the channels, which are part of the timers.

Whatever the users do, epoll's set is `timers_`, entry by entry, so what `poll` reports at that
moment is there, and registered as `pollEvent` looks it up (`registry_coherent`). The dispatch that
follows is the subject of `SchedulerDispatch`.
-/

namespace Codechiev

/-- The timers that are there, with their descriptors, how many `timer_ptr`s their users have, the
    scheduler's map and its epoll set, and the timers that were destroyed. The objects from `next`
    on have not been made yet. -/
structure TimerRegistry where
  fdOf : Ptr → Option Fd
  users : Ptr → ℕ
  next : Ptr
  timers : Fd → Option Ptr
  epoll : EPoll
  destroyed : List Ptr

/-- A step of a user: it makes a timer, on a descriptor that is not open, copies its pointer or lets
    go of it, or calls the scheduler. -/
inductive RegistryStep where
  | newTimer (fd : Fd)
  | copy (p : Ptr)
  | release (p : Ptr)
  | addTimer (p : Ptr)
  | setTimer (p : Ptr)
  | removeTimer (fd : Fd)
  deriving DecidableEq

namespace TimerRegistry

/-- `timers_` has the timer. -/
def Registered (s : TimerRegistry) (p : Ptr) : Prop := ∃ fd, s.timers fd = some p

/-- `~Timer()`, whose `close` takes the descriptor out of the epoll set as well. -/
def destroy (s : TimerRegistry) (p : Ptr) (fd : Fd) : TimerRegistry :=
  { s with
    fdOf := Function.update s.fdOf p none
    epoll := s.epoll.ctlDel fd
    destroyed := s.destroyed ++ [p] }

/-- `removeTimer(int)`, up to the `erase`, for a timer that is found. -/
def erase (s : TimerRegistry) (fd : Fd) : TimerRegistry :=
  { s with epoll := s.epoll.ctlDel fd, timers := Function.update s.timers fd none }

/-- The steps. Each call names a timer that the caller has a pointer to. `addTimer` overwrites the
    entry of the descriptor. A timer that was there under it would lose an owner, but the entry is
    empty or the same timer (`Placed.timers_of_fd`). -/
inductive Step : TimerRegistry → RegistryStep → TimerRegistry → Prop where
  | newTimer {s : TimerRegistry} {fd : Fd} (hfd : ∀ p, s.fdOf p ≠ some fd) :
      Step s (.newTimer fd) { s with
        fdOf := Function.update s.fdOf s.next (some fd)
        users := Function.update s.users s.next 1
        next := s.next + 1 }
  | copy {s : TimerRegistry} {p : Ptr} (hp : 0 < s.users p) :
      Step s (.copy p) { s with users := Function.update s.users p (s.users p + 1) }
  | release {s : TimerRegistry} {p : Ptr} (hp : 0 < s.users p)
      (hother : 1 < s.users p ∨ s.Registered p) :
      Step s (.release p) { s with users := Function.update s.users p (s.users p - 1) }
  -- `~Timer()`
  | releaseLast {s : TimerRegistry} {p : Ptr} {fd : Fd} (hp : s.users p = 1)
      (hother : ¬ s.Registered p) (hfd : s.fdOf p = some fd) :
      Step s (.release p) ({ s with users := Function.update s.users p 0 }.destroy p fd)
  | addTimer {s : TimerRegistry} {p : Ptr} {fd : Fd} (hp : 0 < s.users p)
      (hfd : s.fdOf p = some fd) :
      Step s (.addTimer p) { s with
        timers := Function.update s.timers fd (some p)
        epoll := s.epoll.ctlAdd fd ⟨EPOLLIN, p⟩ }
  | setTimer {s : TimerRegistry} {p : Ptr} {fd : Fd} (hp : 0 < s.users p)
      (hfd : s.fdOf p = some fd) :
      Step s (.setTimer p) { s with epoll := s.epoll.ctlMod fd ⟨EPOLLIN, p⟩ }
  | removeTimer {s : TimerRegistry} {p : Ptr} {fd : Fd} (hfd : s.timers fd = some p)
      (hother : 0 < s.users p ∨ (s.erase fd).Registered p) :
      Step s (.removeTimer fd) (s.erase fd)
  | removeLast {s : TimerRegistry} {p : Ptr} {fd : Fd} (hfd : s.timers fd = some p)
      (hp : s.users p = 0) (hother : ¬ (s.erase fd).Registered p) :
      Step s (.removeTimer fd) ((s.erase fd).destroy p fd)
  -- `find` gives `end()`
  | removeNone {s : TimerRegistry} {fd : Fd} (hfd : s.timers fd = none) :
      Step s (.removeTimer fd) s

def start : TimerRegistry := ⟨fun _ => none, fun _ => 0, 0, fun _ => none, fun _ => none, []⟩

def registryRuns : LabelledSystem TimerRegistry RegistryStep where
  init s := s = start
  step := Step

/-- Each timer has its own descriptor; users have pointers to timers that are there; `timers_` has
    timers that are there under their descriptors; and epoll's set is `timers_`. -/
structure Placed (s : TimerRegistry) : Prop where
  lt : ∀ p fd, s.fdOf p = some fd → p < s.next
  fd_inj : ∀ p q fd, s.fdOf p = some fd → s.fdOf q = some fd → p = q
  users : ∀ p, 0 < s.users p → ∃ fd, s.fdOf p = some fd
  timers : ∀ fd p, s.timers fd = some p → s.fdOf p = some fd
  epoll : ∀ fd, s.epoll fd = (s.timers fd).map fun p => ⟨EPOLLIN, p⟩
  nodup : s.destroyed.Nodup
  destroyed : ∀ p, p ∈ s.destroyed ↔ p < s.next ∧ s.fdOf p = none

/-- In addition, every timer has an owner. -/
structure Coherent (s : TimerRegistry) : Prop extends Placed s where
  owned : ∀ p fd, s.fdOf p = some fd → 0 < s.users p ∨ s.Registered p

variable {s s' : TimerRegistry} {l : RegistryStep} {p : Ptr} {fd : Fd}

theorem coherent_start : start.Coherent where
  lt := nofun
  fd_inj := nofun
  users _ hp := absurd hp (Nat.lt_irrefl 0)
  timers := nofun
  owned := nofun
  epoll _ := rfl
  nodup := List.nodup_nil
  destroyed p := iff_of_false List.not_mem_nil fun h => Nat.not_lt_zero p h.1

namespace Placed

/-- The entry under the descriptor of a timer is that timer or empty. -/
theorem timers_of_fd (h : s.Placed) (hfd : s.fdOf p = some fd) :
    s.timers fd = none ∨ s.timers fd = some p := by
  cases hentry : s.timers fd with
  | none => exact .inl rfl
  | some q =>
    rw [h.fd_inj p q fd hfd (h.timers fd q hentry)]
    exact .inr rfl

theorem newTimer (h : s.Placed) (hfd : ∀ p, s.fdOf p ≠ some fd) :
    Placed { s with
      fdOf := Function.update s.fdOf s.next (some fd)
      users := Function.update s.users s.next 1
      next := s.next + 1 } := by
  have hnone : s.fdOf s.next = none := by
    rw [Option.eq_none_iff_forall_ne_some]
    exact fun fd' hsome => Nat.lt_irrefl _ (h.lt _ _ hsome)
  have hself : Function.update s.fdOf s.next (some fd) s.next = some fd :=
    Function.update_self _ _ _
  have hothers : ∀ {q}, q ≠ s.next → Function.update s.fdOf s.next (some fd) q = s.fdOf q :=
    fun hq => Function.update_of_ne hq _ _
  -- what has a descriptor afterwards is the new timer or had it before
  have hcases : ∀ {q fd'}, Function.update s.fdOf s.next (some fd) q = some fd' →
      q = s.next ∧ fd' = fd ∨ s.fdOf q = some fd' := by
    intro q fd' hq
    by_cases hqn : q = s.next
    · rw [hqn, hself, Option.some.injEq] at hq
      exact .inl ⟨hqn, hq.symm⟩
    · exact .inr ((hothers hqn).symm.trans hq)
  refine { h with lt := ?_, fd_inj := ?_, users := ?_, timers := ?_, destroyed := ?_ }
  · intro q fd' hq
    rcases hcases hq with ⟨rfl, -⟩ | hold
    · exact Nat.lt_succ_self _
    · exact Nat.lt_succ_of_lt (h.lt q fd' hold)
  · -- two with one descriptor: both are new, or both are old
    intro q r fd' hq hr
    rcases hcases hq with ⟨hqn, hnew⟩ | hold
    · rcases hcases hr with ⟨hrn, -⟩ | hold'
      · exact hqn.trans hrn.symm
      · exact absurd (hnew ▸ hold') (hfd r)
    · rcases hcases hr with ⟨-, hnew⟩ | hold'
      · exact absurd (hnew ▸ hold) (hfd q)
      · exact h.fd_inj q r fd' hold hold'
  · intro q hq
    by_cases hqn : q = s.next
    · exact ⟨fd, hqn ▸ hself⟩
    · have hsame : Function.update s.users s.next 1 q = s.users q := Function.update_of_ne hqn _ _
      obtain ⟨fd', hfd'⟩ := h.users q (hsame ▸ hq)
      exact ⟨fd', (hothers hqn).trans hfd'⟩
  · intro fd' q hq
    have hbefore := h.timers fd' q hq
    refine (hothers ?_).trans hbefore
    rintro rfl
    rw [hnone] at hbefore
    cases hbefore
  · intro q
    show q ∈ s.destroyed ↔ q < s.next + 1 ∧ Function.update s.fdOf s.next (some fd) q = none
    by_cases hqn : q = s.next
    · subst hqn
      rw [hself]
      refine iff_of_false (fun hmem => ?_) fun hnew => by cases hnew.2
      exact Nat.lt_irrefl _ ((h.destroyed _).mp hmem).1
    · rw [h.destroyed q, hothers hqn]
      have hlt : q < s.next + 1 ↔ q < s.next :=
        ⟨fun hle => Nat.lt_of_le_of_ne (Nat.le_of_lt_succ hle) hqn, Nat.lt_succ_of_lt⟩
      rw [hlt]

theorem setUsers (h : s.Placed) (n : ℕ) (hp : 0 < s.users p) :
    Placed { s with users := Function.update s.users p n } := by
  refine { h with users := ?_ }
  intro q hq
  by_cases hqp : q = p
  · exact hqp ▸ h.users p hp
  · have hsame : Function.update s.users p n q = s.users q := Function.update_of_ne hqp _ _
    exact h.users q (hsame ▸ hq)

/-- The entry of a descriptor in `timers_` and in the epoll set changes at once. -/
theorem setEntry (h : s.Placed) (entry : Option Ptr) {ep : EPoll}
    (hentry : ∀ p, entry = some p → s.fdOf p = some fd)
    (hself : ep fd = entry.map fun p => ⟨EPOLLIN, p⟩)
    (hothers : ∀ fd', fd' ≠ fd → ep fd' = s.epoll fd') :
    Placed { s with timers := Function.update s.timers fd entry, epoll := ep } := by
  refine { h with timers := ?_, epoll := ?_ }
  · intro fd' q hq
    have hq : Function.update s.timers fd entry fd' = some q := hq
    rw [Function.update_apply] at hq
    split at hq
    · rename_i heq
      exact heq ▸ hentry q hq
    · exact h.timers fd' q hq
  · intro fd'
    show ep fd' = (Function.update s.timers fd entry fd').map _
    by_cases heq : fd' = fd
    · rw [heq, Function.update_self]
      exact hself
    · rw [Function.update_of_ne heq, hothers fd' heq]
      exact h.epoll fd'

theorem erase (h : s.Placed) (fd : Fd) : (s.erase fd).Placed :=
  h.setEntry none nofun (Function.update_self _ _ _)
    fun _ hne => Function.update_of_ne hne _ _

theorem destroy (h : s.Placed) (hfd : s.fdOf p = some fd) (hp : s.users p = 0)
    (hout : ¬ s.Registered p) : (s.destroy p fd).Placed := by
  have hself : Function.update s.fdOf p none p = none := Function.update_self _ _ _
  have hothers : ∀ {q}, q ≠ p → Function.update s.fdOf p none q = s.fdOf q :=
    fun hq => Function.update_of_ne hq _ _
  have hcases : ∀ {q fd'}, Function.update s.fdOf p none q = some fd' →
      q ≠ p ∧ s.fdOf q = some fd' := by
    intro q fd' hq
    by_cases hqp : q = p
    · rw [hqp, hself] at hq
      cases hq
    · exact ⟨hqp, (hothers hqp).symm.trans hq⟩
  refine ⟨fun q fd' hq => h.lt q fd' (hcases hq).2,
    fun q r fd' hq hr => h.fd_inj q r fd' (hcases hq).2 (hcases hr).2, fun q hq => ?_,
    fun fd' q hq => ?_, fun fd' => ?_, ?_, fun q => ?_⟩
  · have hne : q ≠ p := by
      rintro rfl
      exact Nat.lt_irrefl 0 (hp ▸ hq)
    obtain ⟨fd', hfd'⟩ := h.users q hq
    exact ⟨fd', (hothers hne).trans hfd'⟩
  · have hne : q ≠ p := by
      rintro rfl
      exact hout ⟨fd', hq⟩
    exact (hothers hne).trans (h.timers fd' q hq)
  · show s.epoll.ctlDel fd fd' = _
    by_cases heq : fd' = fd
    · -- nothing else is registered under the descriptor that is closed
      have hnone := (h.timers_of_fd hfd).resolve_right fun htimer => hout ⟨fd, htimer⟩
      show s.epoll.ctlDel fd fd' = (s.timers fd').map _
      rw [heq, hnone, EPoll.ctlDel, Function.update_self]
      rfl
    · rw [EPoll.ctlDel, Function.update_of_ne heq]
      exact h.epoll fd'
  · refine List.nodup_append.mpr ⟨h.nodup, List.nodup_singleton p, fun q hq r hr hqr => ?_⟩
    rw [hqr, List.mem_singleton.mp hr] at hq
    have hgone := ((h.destroyed p).mp hq).2
    rw [hfd] at hgone
    cases hgone
  · -- `p` had a descriptor until now, and is the only one to lose it
    show q ∈ s.destroyed ++ [p] ↔ q < s.next ∧ Function.update s.fdOf p none q = none
    rw [List.mem_append, List.mem_singleton, h.destroyed]
    by_cases hqp : q = p
    · subst hqp
      exact iff_of_true (.inr rfl) ⟨h.lt q fd hfd, hself⟩
    · rw [hothers hqp]
      exact or_iff_left hqp

end Placed

namespace Coherent

theorem newTimer (h : s.Coherent) (hfd : ∀ p, s.fdOf p ≠ some fd) :
    Coherent { s with
      fdOf := Function.update s.fdOf s.next (some fd)
      users := Function.update s.users s.next 1
      next := s.next + 1 } := by
  refine ⟨h.toPlaced.newTimer hfd, fun q fd' hq => ?_⟩
  show 0 < Function.update s.users s.next 1 q ∨ s.Registered q
  by_cases hqn : q = s.next
  · rw [hqn, Function.update_self]
    exact .inl Nat.one_pos
  · rw [Function.update_of_ne hqn]
    exact h.owned q fd' ((Function.update_of_ne hqn _ _).symm.trans hq)

/-- A timer that loses its last user is registered. -/
theorem setUsers (h : s.Coherent) {n : ℕ} (hp : 0 < s.users p) (hn : 0 < n ∨ s.Registered p) :
    Coherent { s with users := Function.update s.users p n } := by
  refine ⟨h.toPlaced.setUsers n hp, fun q fd hq => ?_⟩
  show 0 < Function.update s.users p n q ∨ s.Registered q
  by_cases hqp : q = p
  · rw [hqp, Function.update_self]
    exact hn
  · rw [Function.update_of_ne hqp]
    exact h.owned q fd hq

/-- Every timer but the one that is destroyed has an owner. -/
theorem of_destroy (h : s.Placed) (hfd : s.fdOf p = some fd) (hp : s.users p = 0)
    (hout : ¬ s.Registered p)
    (howned : ∀ q fd, q ≠ p → s.fdOf q = some fd → 0 < s.users q ∨ s.Registered q) :
    (s.destroy p fd).Coherent := by
  refine ⟨h.destroy hfd hp hout, fun q fd' hq => ?_⟩
  have hq : Function.update s.fdOf p none q = some fd' := hq
  by_cases hqp : q = p
  · rw [hqp, Function.update_self] at hq
    cases hq
  · exact howned q fd' hqp ((Function.update_of_ne hqp _ _).symm.trans hq)

/-- Other timers stay registered. -/
theorem registered_erase {q : Ptr} (hfd : s.timers fd = some p) (hq : q ≠ p)
    (hreg : s.Registered q) : (s.erase fd).Registered q := by
  obtain ⟨fd', htimer⟩ := hreg
  refine ⟨fd', (Function.update_of_ne ?_ _ _).trans htimer⟩
  rintro rfl
  exact hq (Option.some.inj (htimer.symm.trans hfd))

theorem step (h : s.Coherent) (hstep : Step s l s') : s'.Coherent := by
  cases hstep with
  | newTimer hfd => exact h.newTimer hfd
  | copy hp => exact h.setUsers hp (.inl (Nat.succ_pos _))
  | release hp hother => exact h.setUsers hp (hother.imp_left (Nat.sub_pos_of_lt ·))
  | @releaseLast p fd hp hother hfd =>
    refine of_destroy (h.toPlaced.setUsers 0 (hp ▸ Nat.one_pos)) hfd (Function.update_self _ _ _)
      hother fun q fd' hq hqfd => ?_
    show 0 < Function.update s.users p 0 q ∨ s.Registered q
    rw [Function.update_of_ne hq]
    exact h.owned q fd' hqfd
  | @addTimer p fd hp hfd =>
    refine ⟨h.toPlaced.setEntry (some p) ?_ ?_ fun _ hne => EPoll.ctlAdd_of_ne hne,
      fun q fd' hq => ?_⟩
    · rintro q ⟨⟩
      exact hfd
    · -- a second `addTimer` of the same timer finds it in the set
      rcases h.timers_of_fd hfd with hnone | hsome
      · have hepoll := h.epoll fd
        rw [hnone] at hepoll
        exact EPoll.ctlAdd_self hepoll
      · have hepoll := h.epoll fd
        rw [hsome] at hepoll
        rw [EPoll.ctlAdd, if_neg (by rw [hepoll]; exact Option.some_ne_none _)]
        exact hepoll
    · refine (h.owned q fd' hq).imp_right ?_
      rintro ⟨fd'', htimer⟩
      by_cases heq : fd'' = fd
      · subst heq
        have hsame := h.fd_inj q p fd'' (h.timers fd'' q htimer) hfd
        exact ⟨fd'', hsame ▸ Function.update_self _ _ _⟩
      · exact ⟨fd'', (Function.update_of_ne heq _ _).trans htimer⟩
  | @setTimer p fd hp hfd =>
    -- there is nothing to modify, or it is modified to what it was
    have hsame : s.epoll.ctlMod fd ⟨EPOLLIN, p⟩ = s.epoll := by
      rcases h.timers_of_fd hfd with hnone | hsome
      · refine EPoll.ctlMod_of_none ?_
        rw [h.epoll, hnone]
        rfl
      · have hepoll := h.epoll fd
        rw [hsome] at hepoll
        rw [EPoll.ctlMod, if_neg (by rw [hepoll]; exact Option.some_ne_none _)]
        exact Function.update_eq_self_iff.mpr hepoll.symm
    rw [hsame]
    exact h
  | @removeTimer p fd hfd hother =>
    refine ⟨h.toPlaced.erase fd, fun q fd' hq => ?_⟩
    by_cases hqp : q = p
    · exact hqp ▸ hother
    · exact (h.owned q fd' hq).imp_right (registered_erase hfd hqp)
  | @removeLast p fd hfd hp hother =>
    refine of_destroy (h.toPlaced.erase fd) (h.timers fd p hfd) hp hother fun q fd' hq hqfd => ?_
    exact (h.owned q fd' hqfd).imp_right (registered_erase hfd hq)
  | removeNone => exact h

theorem fdOf_ne_none_iff (h : s.Coherent) : s.fdOf p ≠ none ↔ 0 < s.users p ∨ s.Registered p := by
  refine ⟨fun hthere => ?_, fun howner hgone => ?_⟩
  · obtain ⟨fd, hfd⟩ := Option.ne_none_iff_exists'.mp hthere
    exact h.owned p fd hfd
  · rcases howner with huser | ⟨fd, htimer⟩
    · obtain ⟨fd, hfd⟩ := h.users p huser
      cases hgone.symm.trans hfd
    · cases hgone.symm.trans (h.timers fd p htimer)

/-- What epoll has for a descriptor is a timer that is there and registered under it. -/
theorem epoll_eq_some_iff (h : s.Coherent) {r : Registration} :
    s.epoll fd = some r ↔
      r.events = EPOLLIN ∧ s.timers fd = some r.ptr ∧ s.fdOf r.ptr = some fd := by
  rw [h.epoll, Option.map_eq_some_iff]
  refine ⟨?_, fun ⟨hevents, htimer, _⟩ => ⟨r.ptr, htimer, ?_⟩⟩
  · rintro ⟨p, htimer, rfl⟩
    exact ⟨rfl, htimer, h.timers fd p htimer⟩
  · rw [← hevents]

end Coherent

theorem reachable_coherent (h : registryRuns.Reachable s) : s.Coherent := by
  refine h.invariant ?_ fun _ _ _ _ hcoherent hstep => hcoherent.step hstep
  rintro s rfl
  exact coherent_start

/-- After any steps of the users: a timer is there as long as it has an owner and no longer, and is
    destroyed once; epoll has exactly the timers of `timers_`, which are there, each under its own
    descriptor; and under the descriptor of a timer there is no other, for `addTimer` to push out of
    `timers_`. -/
theorem registry_coherent (h : registryRuns.Reachable s) :
    (∀ p, s.fdOf p ≠ none ↔ 0 < s.users p ∨ s.Registered p) ∧
      (s.destroyed.Nodup ∧ ∀ p, p ∈ s.destroyed ↔ p < s.next ∧ s.fdOf p = none) ∧
      (∀ fd, s.epoll fd = none ↔ s.timers fd = none) ∧
      (∀ fd r, s.epoll fd = some r ↔
        r.events = EPOLLIN ∧ s.timers fd = some r.ptr ∧ s.fdOf r.ptr = some fd) ∧
      ∀ p fd, s.fdOf p = some fd → s.timers fd = none ∨ s.timers fd = some p := by
  have hcoherent := reachable_coherent h
  refine ⟨fun p => hcoherent.fdOf_ne_none_iff, ⟨hcoherent.nodup, hcoherent.destroyed⟩, fun fd => ?_,
    fun fd r => hcoherent.epoll_eq_some_iff, fun p fd hfd => hcoherent.timers_of_fd hfd⟩
  rw [hcoherent.epoll, Option.map_eq_none_iff]

/-- A timer that is registered, and that its user lets go of, stays. -/
theorem registry_coherent_one :
    ∃ s, registryRuns.Reachable s ∧ s.users 0 = 0 ∧ s.epoll 3 = some ⟨EPOLLIN, 0⟩ ∧
      s.fdOf 0 ≠ none := by
  have hstart : registryRuns.Reachable start := .start rfl
  have hstep : Step start (.newTimer 3) _ := .newTimer fun p h => by cases h
  have hnew : registryRuns.Reachable _ := hstart.next _ hstep
  have hadd : registryRuns.Reachable _ := hnew.next (.addTimer 0) (.addTimer Nat.one_pos rfl)
  have hone : registryRuns.Reachable _ :=
    hadd.next (.release 0) (.release Nat.one_pos (.inr ⟨3, rfl⟩))
  exact ⟨_, hone, rfl, rfl, ((registry_coherent hone).1 0).mpr (.inr ⟨3, rfl⟩)⟩

end TimerRegistry

end Codechiev
