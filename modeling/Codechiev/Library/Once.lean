import Codechiev.Library.Transition
import Mathlib.Logic.Function.Basic

/-!
# Initialisation that is run once

Any number of threads pass a control. The first to come runs the initialisation, those that come
while it runs wait for it, and nobody gets past before it is through. What is initialised is left
open: a user of the control adds its own state and says what happens between `start` and `finish`.
-/

/-- Whether the initialisation was run. -/
inductive OnceControl (τ : Type*) where
  | fresh
  | running (t : τ)
  | complete

/-- Where a thread is: not at the control, in front of it, in the initialisation, or past it. -/
inductive OncePhase where
  | outside
  | waiting
  | running
  | past
  deriving DecidableEq

/-- The control and the threads. -/
structure Once (τ : Type*) where
  control : OnceControl τ
  phase : τ → OncePhase

/-- A thread comes, starts the initialisation, is through with it, gets past without it, or goes
    away. -/
inductive OnceStep (τ : Type*) where
  | call (t : τ)
  | start (t : τ)
  | finish (t : τ)
  | pass (t : τ)
  | leave (t : τ)

namespace Once

variable {τ : Type*}

/-- Nobody has come. -/
def new (τ : Type*) : Once τ := ⟨.fresh, fun _ => .outside⟩

variable [DecidableEq τ]

/-- The thread is somewhere else now. -/
def move (s : Once τ) (t : τ) (p : OncePhase) : Once τ :=
  { s with phase := Function.update s.phase t p }

inductive Step : Once τ → OnceStep τ → Once τ → Prop where
  | call {s : Once τ} {t : τ} (ht : s.phase t = .outside) : Step s (.call t) (s.move t .waiting)
  | start {s : Once τ} {t : τ} (ht : s.phase t = .waiting) (hfresh : s.control = .fresh) :
      Step s (.start t) { s.move t .running with control := .running t }
  | finish {s : Once τ} {t : τ} (ht : s.phase t = .running) :
      Step s (.finish t) { s.move t .past with control := .complete }
  | pass {s : Once τ} {t : τ} (ht : s.phase t = .waiting) (hcomplete : s.control = .complete) :
      Step s (.pass t) (s.move t .past)
  | leave {s : Once τ} {t : τ} (ht : s.phase t = .past) : Step s (.leave t) (s.move t .outside)

omit [DecidableEq τ] in
/-- One thread at most runs the initialisation, and those that are past it waited for it. -/
structure Valid (s : Once τ) : Prop where
  running_iff : ∀ t, s.phase t = .running ↔ s.control = .running t
  complete : ∀ t, s.phase t = .past → s.control = .complete

variable {s s' : Once τ} {l : OnceStep τ} {t u : τ} {p : OncePhase}

@[simp] theorem move_self (s : Once τ) (t : τ) (p : OncePhase) : (s.move t p).phase t = p :=
  Function.update_self _ _ _

theorem move_of_ne (h : u ≠ t) : (s.move t p).phase u = s.phase u := Function.update_of_ne h _ _

omit [DecidableEq τ] in
theorem valid_new : (new τ).Valid := ⟨fun _ => ⟨nofun, nofun⟩, fun _ => nofun⟩

omit [DecidableEq τ] in
/-- The threads in the initialisation are one thread. -/
theorem Valid.single (h : s.Valid) (ht : s.phase t = .running) (hu : s.phase u = .running) :
    t = u := by
  have hcontrol := (h.running_iff t).mp ht
  rw [(h.running_iff u).mp hu, OnceControl.running.injEq] at hcontrol
  exact hcontrol.symm

/-- A thread that was not in the initialisation and does not go into it leaves the control alone. -/
theorem Valid.move (h : s.Valid) (ht : s.phase t ≠ .running) (hp : p ≠ .running)
    (hpast : p = .past → s.control = .complete) : (s.move t p).Valid := by
  refine ⟨fun u => ?_, fun u hu => ?_⟩
  · by_cases hut : u = t
    · subst hut
      rw [move_self]
      exact iff_of_false hp fun hcontrol => ht ((h.running_iff u).mpr hcontrol)
    · rw [move_of_ne hut]
      exact h.running_iff u
  · by_cases hut : u = t
    · subst hut
      rw [move_self] at hu
      exact hpast hu
    · rw [move_of_ne hut] at hu
      exact h.complete u hu

theorem Valid.step (h : s.Valid) (hstep : Step s l s') : s'.Valid := by
  cases hstep with
  | call ht => exact h.move (by rw [ht]; decide) (by decide) nofun
  | @start t ht hfresh =>
    -- the control was fresh, so nobody else runs the initialisation and nobody is past it
    refine ⟨fun u => ?_, fun u hu => ?_⟩
    · show (s.move t .running).phase u = .running ↔ OnceControl.running t = .running u
      by_cases hut : u = t
      · subst hut
        rw [move_self]
        exact iff_of_true rfl rfl
      · rw [move_of_ne hut, h.running_iff u, hfresh, OnceControl.running.injEq]
        exact iff_of_false nofun (Ne.symm hut)
    · have hu : (s.move t .running).phase u = .past := hu
      have hut : u ≠ t := by
        rintro rfl
        rw [move_self] at hu
        cases hu
      rw [move_of_ne hut] at hu
      rw [h.complete u hu] at hfresh
      cases hfresh
  | @finish t ht =>
    refine ⟨fun u => ?_, fun u _ => rfl⟩
    show (s.move t .past).phase u = .running ↔ OnceControl.complete = .running u
    refine iff_of_false (fun hu => ?_) nofun
    by_cases hut : u = t
    · subst hut
      rw [move_self] at hu
      cases hu
    · rw [move_of_ne hut] at hu
      exact hut (h.single hu ht)
  | pass ht hcomplete => exact h.move (by rw [ht]; decide) (by decide) fun _ => hcomplete
  | leave ht => exact h.move (by rw [ht]; decide) (by decide) nofun

/-- What is complete stays complete. -/
theorem complete_step (hcomplete : s.control = .complete) (hstep : Step s l s') :
    s'.control = .complete := by
  cases hstep with
  | call | pass | leave => exact hcomplete
  | start _ hfresh => cases hcomplete.symm.trans hfresh
  | finish => rfl

/-- As long as a thread is at the control, one of those that are can go on, be it in the
    initialisation. -/
theorem Valid.progress (h : s.Valid) (ht : s.phase t ≠ .outside) :
    (∃ u, s.phase u = .running) ∨
      ∃ u l s', s.phase u ≠ .outside ∧ (l = .start u ∨ l = .pass u ∨ l = .leave u) ∧
        Step s l s' := by
  cases hphase : s.phase t with
  | outside => exact absurd hphase ht
  | running => exact .inl ⟨t, hphase⟩
  | past => exact .inr ⟨t, .leave t, _, ht, .inr (.inr rfl), .leave hphase⟩
  | waiting =>
    cases hcontrol : s.control with
    | fresh => exact .inr ⟨t, .start t, _, ht, .inl rfl, .start hphase hcontrol⟩
    | running u => exact .inl ⟨u, (h.running_iff u).mpr hcontrol⟩
    | complete => exact .inr ⟨t, .pass t, _, ht, .inr (.inl rfl), .pass hphase hcontrol⟩

end Once
