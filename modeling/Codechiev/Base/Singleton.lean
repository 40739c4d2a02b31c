import Codechiev.Library.Once
import Mathlib.Data.List.Nodup

/-!
# `base::Singleton` and `base::ThreadSingleton`

`Singleton<T>::get` makes the object under `pthread_once`, and `atexit` has it deleted. Whatever
order the threads come in, one object is made, every `get` returns it, complete, and until the
process is told to exit it is there (`same_object`).

`ThreadSingleton<T>::get` makes the key under `pthread_once`, and an object for each thread that
asks; the key's destructor deletes it when the thread ends (`own_objects`).

The constructor and the destructor of `T` call no `get` of their own, and making the key succeeds.
-/

namespace Codechiev

/-! ## `Singleton` -/

/-- How far `initRoutine()` has got. -/
inductive InitRoutine where
  | untouched
  | made
  | registered
  deriving DecidableEq

/-- How far `destructor()` has got. -/
inductive Destructor where
  | idle
  | deleted
  | cleared
  deriving DecidableEq

/-- The static members of `Singleton<T>`, the objects by the order in which they were made, those
    that were deleted, and what the calls of `get` have returned. -/
structure Singleton (τ : Type*) extends Once τ where
  t_ : Option ℕ
  made : ℕ
  init : InitRoutine
  exiting : Bool
  destructor : Destructor
  deleted : List ℕ
  got : List (Option ℕ)

/-- A step of a thread in `get()`, or of the process on its way out. -/
inductive SingletonStep (τ : Type*) where
  | once (l : OnceStep τ)
  | new (t : τ)
  | atexit (t : τ)
  | get (t : τ)
  | exit
  | delete
  | clear

namespace Singleton

variable {τ : Type*} [DecidableEq τ]

/-- The steps. `pthread_once` comes back from `initRoutine` at its end, and `get` reads `t_` when
    `pthread_once` has returned. -/
inductive Step : Singleton τ → SingletonStep τ → Singleton τ → Prop where
  | once {s : Singleton τ} {o : Once τ} {l : OnceStep τ} (hstep : Once.Step s.toOnce l o)
      (hfinish : ∀ t, l = .finish t → s.init = .registered) (hleave : ∀ t, l ≠ .leave t) :
      Step s (.once l) { s with toOnce := o }
  | new {s : Singleton τ} {t : τ} (ht : s.phase t = .running) (hinit : s.init = .untouched) :
      Step s (.new t) { s with t_ := some s.made, made := s.made + 1, init := .made }
  | atexit {s : Singleton τ} {t : τ} (ht : s.phase t = .running) (hinit : s.init = .made) :
      Step s (.atexit t) { s with init := .registered }
  | get {s : Singleton τ} {t : τ} {o : Once τ} (hleave : Once.Step s.toOnce (.leave t) o) :
      Step s (.get t) { s with toOnce := o, got := s.got ++ [s.t_] }
  | exit {s : Singleton τ} : Step s .exit { s with exiting := true }
  | delete {s : Singleton τ} (hexit : s.exiting = true) (hinit : s.init = .registered)
      (hidle : s.destructor = .idle) :
      Step s .delete { s with deleted := s.deleted ++ s.t_.toList, destructor := .deleted }
  | clear {s : Singleton τ} (hdeleted : s.destructor = .deleted) :
      Step s .clear { s with t_ := none, destructor := .cleared }

/-- Before the first `get`. -/
def start (τ : Type*) : Singleton τ := ⟨.new τ, none, 0, .untouched, false, .idle, [], []⟩

def singletonRuns (τ : Type*) [DecidableEq τ] : LabelledSystem (Singleton τ) (SingletonStep τ) where
  init s := s = start τ
  step := Step

/-- What the members say about each other: how far the initialisation is, that the first object is
    the only one, and how far it is deleted. -/
structure Sole (s : Singleton τ) : Prop where
  valid : s.toOnce.Valid
  fresh : s.control = .fresh → s.init = .untouched
  complete : s.control = .complete → s.init = .registered
  untouched : s.init = .untouched → s.made = 0
  touched : s.init ≠ .untouched → s.made = 1 ∧ (s.destructor ≠ .cleared → s.t_ = some 0)
  idle : s.destructor = .idle → s.deleted = []
  ended : s.destructor ≠ .idle → s.exiting = true ∧ s.init = .registered ∧ s.deleted = [0]
  cleared : s.destructor = .cleared → s.t_ = none
  got : ∀ p ∈ s.got, p = some 0 ∨ p = none ∧ s.destructor = .cleared

variable {s s' : Singleton τ} {l : SingletonStep τ}

omit [DecidableEq τ] in
theorem sole_start : (start τ).Sole where
  valid := Once.valid_new
  fresh _ := rfl
  complete := nofun
  untouched _ := rfl
  touched h := absurd rfl h
  idle _ := rfl
  ended h := absurd rfl h
  cleared := nofun
  got := nofun

omit [DecidableEq τ] in
/-- A thread that is past the control finds the object, or null after the destructor. -/
theorem Sole.read (h : s.Sole) {t : τ} (ht : s.phase t = .past) :
    s.t_ = some 0 ∨ s.t_ = none ∧ s.destructor = .cleared := by
  have hinit := h.complete (h.valid.complete t ht)
  by_cases hcleared : s.destructor = .cleared
  · exact .inr ⟨h.cleared hcleared, hcleared⟩
  · exact .inl ((h.touched (by rw [hinit]; decide)).2 hcleared)

theorem Sole.once {o : Once τ} {l : OnceStep τ} (h : s.Sole) (hstep : Once.Step s.toOnce l o)
    (hfinish : ∀ t, l = .finish t → s.init = .registered) :
    Sole { s with toOnce := o } where
  valid := h.valid.step hstep
  fresh hfresh := by
    cases hstep with
    | call | pass | leave => exact h.fresh hfresh
    | start | finish => cases hfresh
  complete hcomplete := by
    cases hstep with
    | call | pass | leave => exact h.complete hcomplete
    | start => cases hcomplete
    | finish => exact hfinish _ rfl
  untouched := h.untouched
  touched := h.touched
  idle := h.idle
  ended := h.ended
  cleared := h.cleared
  got := h.got

theorem Sole.step (h : s.Sole) (hstep : Step s l s') : s'.Sole := by
  cases hstep with
  | once hstep hfinish => exact h.once hstep hfinish
  | @new t ht hinit =>
    have hrunning := (h.valid.running_iff t).mp ht
    have hidle : s.destructor = .idle := by
      by_contra hended
      have hregistered := (h.ended hended).2.1
      rw [hinit] at hregistered
      cases hregistered
    have hmade := h.untouched hinit
    refine { h with
      fresh := ?_, complete := ?_, untouched := nofun, touched := ?_, ended := ?_, cleared := ?_ }
    · intro hfresh
      cases hrunning.symm.trans hfresh
    · intro hcomplete
      cases hrunning.symm.trans hcomplete
    · intro _
      show s.made + 1 = 1 ∧ (_ → some s.made = some 0)
      rw [hmade]
      exact ⟨rfl, fun _ => rfl⟩
    · exact fun hended => absurd hidle hended
    · intro hcleared
      cases hidle.symm.trans hcleared
  | @atexit t ht hinit =>
    have hrunning := (h.valid.running_iff t).mp ht
    have htouched := h.touched (by rw [hinit]; decide)
    refine { h with
      fresh := ?_, complete := fun _ => rfl, untouched := nofun, touched := fun _ => htouched
      ended := ?_ }
    · intro hfresh
      cases hrunning.symm.trans hfresh
    · intro hended
      obtain ⟨hexit, -, hdeleted⟩ := h.ended hended
      exact ⟨hexit, rfl, hdeleted⟩
  | @get t o hleave =>
    have ht : s.phase t = .past := by
      cases hleave with
      | leave ht => exact ht
    have hread := h.read ht
    refine { h.once hleave nofun with got := ?_ }
    intro p hp
    rcases List.mem_append.mp hp with hp | hp
    · exact h.got p hp
    · rw [List.mem_singleton.mp hp]
      exact hread
  | exit =>
    refine { h with ended := ?_ }
    intro hended
    exact ⟨rfl, (h.ended hended).2⟩
  | delete hexit hinit hidle =>
    have hobject := (h.touched (by rw [hinit]; decide)).2 (by rw [hidle]; decide)
    refine { h with touched := ?_, idle := nofun, ended := ?_, cleared := nofun, got := ?_ }
    · intro htouched
      exact ⟨(h.touched htouched).1, fun _ => hobject⟩
    · intro _
      refine ⟨hexit, hinit, ?_⟩
      show s.deleted ++ s.t_.toList = [0]
      rw [h.idle hidle, hobject]
      rfl
    · intro p hp
      refine .inl ((h.got p hp).resolve_right ?_)
      rintro ⟨-, hcleared⟩
      cases hidle.symm.trans hcleared
  | clear hdeleted =>
    have hended := h.ended (by rw [hdeleted]; decide)
    refine { h with
      touched := ?_, idle := nofun, ended := fun _ => hended, cleared := fun _ => rfl, got := ?_ }
    · intro htouched
      exact ⟨(h.touched htouched).1, fun hcleared => absurd rfl hcleared⟩
    · intro p hp
      exact (h.got p hp).imp_right fun hnull => ⟨hnull.1, rfl⟩

theorem reachable_sole (h : (singletonRuns τ).Reachable s) : s.Sole := by
  refine h.invariant ?_ fun s l s' _ hs hstep => hs.step hstep
  rintro s rfl
  exact sole_start

omit [DecidableEq τ] in
/-- A step by which the thread gets on in a call of `get`. -/
def GetsOn (t : τ) (l : SingletonStep τ) : Prop :=
  l ∈ [.once (.start t), .new t, .atexit t, .once (.finish t), .once (.pass t), .get t]

/-- The thread in `initRoutine` gets on. -/
theorem gets_on_running {t : τ} (ht : s.phase t = .running) : ∃ l s', GetsOn t l ∧ Step s l s' := by
  cases hinit : s.init with
  | untouched => exact ⟨.new t, _, by simp [GetsOn], .new ht hinit⟩
  | made => exact ⟨.atexit t, _, by simp [GetsOn], .atexit ht hinit⟩
  | registered =>
    exact ⟨.once (.finish t), _, by simp [GetsOn], .once (.finish ht) (fun _ _ => hinit) nofun⟩

/-- As long as a thread is in `get`, one that is gets on. -/
theorem Sole.gets_on (h : s.Sole) {t : τ} (ht : s.phase t ≠ .outside) :
    ∃ u l s', s.phase u ≠ .outside ∧ GetsOn u l ∧ Step s l s' := by
  rcases h.valid.progress ht with ⟨u, hu⟩ | ⟨u, l, o, hu, rfl | rfl | rfl, hstep⟩
  · obtain ⟨l, s', hl, hstep⟩ := gets_on_running hu
    exact ⟨u, l, s', by rw [hu]; decide, hl, hstep⟩
  · exact ⟨u, .once (.start u), _, hu, by simp [GetsOn], .once hstep nofun nofun⟩
  · exact ⟨u, .once (.pass u), _, hu, by simp [GetsOn], .once hstep nofun nofun⟩
  · exact ⟨u, .get u, _, hu, by simp [GetsOn], .get hstep⟩

/-- In every run of any number of threads that call `get`, with the process told to exit at any
    time: one object is made at most, and all calls return it, but for those that come after the
    destructor and get null; it is deleted once at most, and not before the process exits; and as
    long as a thread is in `get`, one that is can go on. -/
theorem same_object (s : Singleton τ) (h : (singletonRuns τ).Reachable s) :
    s.made ≤ 1 ∧ (∀ p ∈ s.got, p = some 0 ∨ p = none ∧ s.destructor = .cleared) ∧
      s.deleted.Nodup ∧ (s.exiting = false → s.deleted = []) ∧
      ∀ t, s.phase t ≠ .outside → ∃ u l s', s.phase u ≠ .outside ∧ GetsOn u l ∧ Step s l s' := by
  have hs := reachable_sole h
  have hmade : s.made ≤ 1 := by
    by_cases hinit : s.init = .untouched
    · rw [hs.untouched hinit]
      exact Nat.zero_le 1
    · exact Nat.le_of_eq (hs.touched hinit).1
  have hdeleted : s.deleted = [] ∨ s.deleted = [0] ∧ s.exiting = true := by
    by_cases hidle : s.destructor = .idle
    · exact .inl (hs.idle hidle)
    · obtain ⟨hexit, -, heq⟩ := hs.ended hidle
      exact .inr ⟨heq, hexit⟩
  refine ⟨hmade, hs.got, ?_, fun hexit => ?_, fun t ht => hs.gets_on ht⟩
  · rcases hdeleted with heq | ⟨heq, -⟩
    · rw [heq]
      exact List.nodup_nil
    · rw [heq]
      exact List.nodup_singleton 0
  · refine hdeleted.resolve_right fun hend => ?_
    rw [hexit] at hend
    cases hend.2

theorem reachable_step (h : (singletonRuns τ).Reachable s) (hstep : Step s l s') :
    (singletonRuns τ).Reachable s' := .next l h hstep

theorem reachable_once {o : Once τ} {l : OnceStep τ} (h : (singletonRuns τ).Reachable s)
    (hstep : Once.Step s.toOnce l o) (hfinish : ∀ t, l ≠ .finish t) (hleave : ∀ t, l ≠ .leave t) :
    (singletonRuns τ).Reachable { s with toOnce := o } :=
  reachable_step h (.once hstep (fun t ht => absurd ht (hfinish t)) hleave)

/-- A call of `get` while another one is in `initRoutine`. -/
theorem same_object_two : ∃ s : Singleton Bool, s.phase false = .waiting ∧ s.made ≤ 1 ∧
    ∃ u l s', s.phase u ≠ .outside ∧ GetsOn u l ∧ Step s l s' := by
  have hstart : (singletonRuns Bool).Reachable (start Bool) := .start rfl
  have hcall := reachable_once hstart (.call (t := true) rfl) nofun nofun
  have hinit := reachable_once hcall (.start (t := true) rfl rfl) nofun nofun
  have hnew := reachable_step hinit (.new (t := true) rfl rfl)
  have hwait := reachable_once hnew (.call (t := false) rfl) nofun nofun
  obtain ⟨hmade, -, -, -, hgets⟩ := same_object _ hwait
  exact ⟨_, rfl, hmade, hgets false (by decide)⟩

end Singleton

/-! ## `ThreadSingleton` -/

/-- The static members of `ThreadSingleton<T>`, those with a value for each thread included; how
    often the key was made; for each object the thread that made it, those that were deleted, and
    the threads that have ended; and what the calls of `get` have returned. -/
structure ThreadSingleton (τ : Type*) extends Once τ where
  keys : ℕ
  specific : τ → Option ℕ
  t_ : τ → Option ℕ
  owner : List τ
  deleted : List ℕ
  ended : τ → Bool
  got : List (τ × ℕ)

/-- A step of a thread in `get()`, or its end. -/
inductive ThreadSingletonStep (τ : Type*) where
  | once (l : OnceStep τ)
  | makeKey (t : τ)
  | get (t : τ)
  | exit (t : τ)

namespace ThreadSingleton

variable {τ : Type*} [DecidableEq τ]

/-- `get()` after `pthread_once`, in which a thread sees its own data only. -/
def get (s : ThreadSingleton τ) (t : τ) : ThreadSingleton τ :=
  match s.specific t with
  | some p => { s with t_ := Function.update s.t_ t (some p), got := s.got ++ [(t, p)] }
  | none =>
    let p := s.owner.length
    { s with
      t_ := Function.update s.t_ t (some p)
      specific := Function.update s.specific t (some p)
      owner := s.owner ++ [t]
      got := s.got ++ [(t, p)] }

/-- The thread ends: if it has a value under the key, the value is taken away and `destructor`
    called, which looks at `t_`. -/
def exit (s : ThreadSingleton τ) (t : τ) : ThreadSingleton τ :=
  { s with
    specific := Function.update s.specific t none
    deleted := s.deleted ++ if (s.specific t).isSome then (s.t_ t).toList else []
    ended := Function.update s.ended t true }

/-- The steps. `make_key` is one call, and one step with the return of `pthread_once`. -/
inductive Step : ThreadSingleton τ → ThreadSingletonStep τ → ThreadSingleton τ → Prop where
  | once {s : ThreadSingleton τ} {o : Once τ} {l : OnceStep τ} (hstep : Once.Step s.toOnce l o)
      (hcall : ∀ t, l = .call t → s.ended t = false) (hfinish : ∀ t, l ≠ .finish t)
      (hleave : ∀ t, l ≠ .leave t) : Step s (.once l) { s with toOnce := o }
  | makeKey {s : ThreadSingleton τ} {t : τ} {o : Once τ}
      (hfinish : Once.Step s.toOnce (.finish t) o) :
      Step s (.makeKey t) { s with toOnce := o, keys := s.keys + 1 }
  | get {s : ThreadSingleton τ} {t : τ} {o : Once τ} (hleave : Once.Step s.toOnce (.leave t) o) :
      Step s (.get t) { s.get t with toOnce := o }
  | exit {s : ThreadSingleton τ} {t : τ} (ht : s.phase t = .outside)
      (hended : s.ended t = false) : Step s (.exit t) (s.exit t)

/-- Before the first `get`. -/
def start (τ : Type*) : ThreadSingleton τ :=
  ⟨.new τ, 0, fun _ => none, fun _ => none, [], [], fun _ => false, []⟩

def threadSingletonRuns (τ : Type*) [DecidableEq τ] :
    LabelledSystem (ThreadSingleton τ) (ThreadSingletonStep τ) where
  init s := s = start τ
  step := Step

/-- Each object belongs to one thread, which has it under the key until it ends, and each thread
    has one object at most. -/
structure Owned (s : ThreadSingleton τ) : Prop where
  valid : s.toOnce.Valid
  no_key : s.control ≠ .complete → s.keys = 0
  one_key : s.keys ≤ 1
  nodup : s.owner.Nodup
  specific : ∀ t p, s.specific t = some p →
    s.t_ t = some p ∧ s.owner[p]? = some t ∧ s.ended t = false
  mem_owner : ∀ t ∈ s.owner, s.ended t = false → s.specific t ≠ none
  deleted : s.deleted.Nodup
  lt : ∀ p ∈ s.deleted, p < s.owner.length
  deleted_iff : ∀ t p, s.owner[p]? = some t → (p ∈ s.deleted ↔ s.ended t = true)
  outside : ∀ t, s.ended t = true → s.phase t = .outside
  got : ∀ x ∈ s.got, s.owner[x.2]? = some x.1

variable {s s' : ThreadSingleton τ} {l : ThreadSingletonStep τ} {t : τ}

omit [DecidableEq τ] in
theorem owned_start : (start τ).Owned where
  valid := Once.valid_new
  no_key _ := rfl
  one_key := Nat.zero_le 1
  nodup := List.nodup_nil
  specific := nofun
  mem_owner := nofun
  deleted := List.nodup_nil
  lt := nofun
  deleted_iff _ _ h := by cases h
  outside _ _ := rfl
  got := nofun

/-- A thread that has not ended moves at the control. -/
theorem Owned.once {o : Once τ} {l : OnceStep τ} (h : s.Owned) (hstep : Once.Step s.toOnce l o)
    (hcall : ∀ t, l = .call t → s.ended t = false)
    (hkey : o.control ≠ .complete → s.control ≠ .complete) : Owned { s with toOnce := o } := by
  refine { h with
    valid := h.valid.step hstep, no_key := fun hc => h.no_key (hkey hc), outside := ?_ }
  intro u hu
  have hout := h.outside u hu
  have hmoved : ∀ {v : τ} {p : OncePhase}, s.phase v ≠ .outside →
      (s.toOnce.move v p).phase u = .outside := by
    intro v p hv
    rw [Once.move_of_ne]
    · exact hout
    · rintro rfl
      exact hv hout
  cases hstep with
  | @call v hv =>
    show (s.toOnce.move v .waiting).phase u = .outside
    rw [Once.move_of_ne]
    · exact hout
    · rintro rfl
      rw [hcall u rfl] at hu
      cases hu
  | start hv | finish hv | pass hv | leave hv => exact hmoved (by rw [hv]; decide)

omit [DecidableEq τ] in
/-- A thread that is past the control has not ended. -/
theorem Owned.not_ended (h : s.Owned) (ht : s.phase t ≠ .outside) : s.ended t = false := by
  cases hended : s.ended t with
  | false => rfl
  | true => exact absurd (h.outside t hended) ht

/-- A thread that has an object gets it again. -/
theorem Owned.get_again {p : ℕ} (h : s.Owned) (hp : s.specific t = some p) :
    Owned { s with t_ := Function.update s.t_ t (some p), got := s.got ++ [(t, p)] } := by
  obtain ⟨-, howner, -⟩ := h.specific t p hp
  refine { h with specific := ?_, got := ?_ }
  · intro u q hq
    obtain ⟨hu, hrest⟩ := h.specific u q hq
    refine ⟨?_, hrest⟩
    show Function.update s.t_ t (some p) u = some q
    rw [Function.update_apply]
    split
    · rename_i hut
      rw [← hp, ← hut]
      exact hq
    · exact hu
  · intro x hx
    rcases List.mem_append.mp hx with hx | hx
    · exact h.got x hx
    · rw [List.mem_singleton.mp hx]
      exact howner

/-- A thread that has none makes one. -/
theorem Owned.get_new (h : s.Owned) (halive : s.ended t = false) (hp : s.specific t = none) :
    Owned { s with
      t_ := Function.update s.t_ t (some s.owner.length)
      specific := Function.update s.specific t (some s.owner.length)
      owner := s.owner ++ [t]
      got := s.got ++ [(t, s.owner.length)] } := by
  have hnew : t ∉ s.owner := fun hmem => h.mem_owner t hmem halive hp
  have hold : ∀ {q : ℕ} {u : τ}, s.owner[q]? = some u → (s.owner ++ [t])[q]? = some u := by
    intro q u hq
    rw [List.getElem?_append_left (List.getElem?_eq_some_iff.mp hq).1]
    exact hq
  have hlast : (s.owner ++ [t])[s.owner.length]? = some t := List.getElem?_concat_length
  refine { h with
    nodup := ?_, specific := ?_, mem_owner := ?_, lt := ?_, deleted_iff := ?_, got := ?_ }
  · exact List.nodup_append.mpr ⟨h.nodup, List.nodup_singleton t, fun u hu v hv huv =>
      hnew (List.mem_singleton.mp hv ▸ huv ▸ hu)⟩
  · intro u q hq
    have hq : Function.update s.specific t (some s.owner.length) u = some q := hq
    show Function.update s.t_ t (some s.owner.length) u = some q ∧
      (s.owner ++ [t])[q]? = some u ∧ s.ended u = false
    by_cases hut : u = t
    · subst hut
      rw [Function.update_self, Option.some.injEq] at hq
      subst hq
      exact ⟨Function.update_self _ _ _, hlast, halive⟩
    · rw [Function.update_of_ne hut] at hq ⊢
      obtain ⟨hu, howner, hended⟩ := h.specific u q hq
      exact ⟨hu, hold howner, hended⟩
  · intro u hu hended
    show Function.update s.specific t (some s.owner.length) u ≠ none
    by_cases hut : u = t
    · subst hut
      rw [Function.update_self]
      exact Option.some_ne_none _
    · rw [Function.update_of_ne hut]
      refine h.mem_owner u ?_ hended
      exact (List.mem_append.mp hu).resolve_right fun hmem => hut (List.mem_singleton.mp hmem)
  · intro q hq
    show q < (s.owner ++ [t]).length
    rw [List.length_append]
    exact Nat.lt_add_right _ (h.lt q hq)
  · intro u q hq
    have hq : (s.owner ++ [t])[q]? = some u := hq
    rw [List.getElem?_append] at hq
    split at hq
    · exact h.deleted_iff u q hq
    · -- the new object, which its thread has just made
      rename_i hge
      obtain rfl : u = t := by
        have hmem := List.mem_of_getElem? hq
        exact List.mem_singleton.mp hmem
      refine iff_of_false (fun hmem => hge (h.lt q hmem)) ?_
      rw [halive]
      exact Bool.false_ne_true
  · intro x hx
    rcases List.mem_append.mp hx with hx | hx
    · exact hold (h.got x hx)
    · rw [List.mem_singleton.mp hx]
      exact hlast

theorem Owned.get (h : s.Owned) (ht : s.phase t ≠ .outside) : (s.get t).Owned := by
  simp only [ThreadSingleton.get]
  cases hp : s.specific t with
  | some p => exact h.get_again hp
  | none => exact h.get_new (h.not_ended ht) hp

theorem Owned.exit (h : s.Owned) (ht : s.phase t = .outside) (halive : s.ended t = false) :
    (s.exit t).Owned := by
  have hdeleted : ∀ p, p ∈ (s.exit t).deleted ↔ p ∈ s.deleted ∨ s.specific t = some p := by
    intro p
    show p ∈ s.deleted ++ _ ↔ _
    rw [List.mem_append]
    cases hp : s.specific t with
    | none => simp
    | some q => simp [(h.specific t q hp).1, eq_comm]
  have hothers : ∀ u, u ≠ t → (s.exit t).specific u = s.specific u ∧
      (s.exit t).ended u = s.ended u :=
    fun u hu => ⟨Function.update_of_ne hu _ _, Function.update_of_ne hu _ _⟩
  have hnone : (s.exit t).specific t = none := Function.update_self _ _ _
  have hended : (s.exit t).ended t = true := Function.update_self _ _ _
  refine { h with
    specific := ?_, mem_owner := ?_, deleted := ?_, lt := ?_, deleted_iff := ?_, outside := ?_ }
  · intro u q hq
    by_cases hut : u = t
    · rw [hut, hnone] at hq
      cases hq
    · rw [(hothers u hut).1] at hq
      rw [(hothers u hut).2]
      exact h.specific u q hq
  · intro u hu huended
    by_cases hut : u = t
    · rw [hut, hended] at huended
      cases huended
    · rw [(hothers u hut).1]
      rw [(hothers u hut).2] at huended
      exact h.mem_owner u hu huended
  · show (s.deleted ++ _).Nodup
    cases hp : s.specific t with
    | none => simpa using h.deleted
    | some q =>
      obtain ⟨hq, howner, -⟩ := h.specific t q hp
      have hnot : q ∉ s.deleted := by
        rw [h.deleted_iff t q howner, halive]
        exact Bool.false_ne_true
      simp only [hq, Option.isSome_some, if_true, Option.toList_some]
      exact List.nodup_append.mpr ⟨h.deleted, List.nodup_singleton q, fun r hr v hv hrv =>
        hnot (List.mem_singleton.mp hv ▸ hrv ▸ hr)⟩
  · intro q hq
    rcases (hdeleted q).mp hq with hq | hq
    · exact h.lt q hq
    · exact (List.getElem?_eq_some_iff.mp (h.specific t q hq).2.1).1
  · intro u q hq
    rw [hdeleted]
    by_cases hut : u = t
    · -- its object is the one that is deleted now
      subst hut
      refine iff_of_true (.inr ?_) hended
      obtain ⟨p, hp⟩ := Option.ne_none_iff_exists'.mp
        (h.mem_owner u (List.mem_of_getElem? hq) halive)
      have howner := (h.specific u p hp).2.1
      rw [hp, (List.getElem?_inj (List.getElem?_eq_some_iff.mp hq).1 h.nodup).mp
        (hq.trans howner.symm)]
    · rw [(hothers u hut).2, ← h.deleted_iff u q hq]
      refine or_iff_left fun hp => hut ?_
      exact Option.some.inj (hq.symm.trans (h.specific t q hp).2.1)
  · intro u huended
    by_cases hut : u = t
    · exact hut ▸ ht
    · rw [(hothers u hut).2] at huended
      exact h.outside u huended

theorem Owned.step (h : s.Owned) (hstep : Step s l s') : s'.Owned := by
  cases hstep with
  | @once o l hstep hcall hfinish hleave =>
    refine h.once hstep hcall fun hnot hcomplete => hnot ?_
    exact Once.complete_step hcomplete hstep
  | @makeKey t o hfinish =>
    have hzero : s.keys = 0 := by
      refine h.no_key fun hcomplete => ?_
      cases hfinish with
      | finish ht => cases hcomplete.symm.trans ((h.valid.running_iff t).mp ht)
    have hdone : o.control = .complete := by
      cases hfinish with
      | finish => rfl
    have honce := h.once hfinish nofun fun hnot => absurd hdone hnot
    refine { honce with no_key := fun hnot => absurd hdone hnot, one_key := ?_ }
    show s.keys + 1 ≤ 1
    omega
  | @get t o hleave =>
    have ht : s.phase t ≠ .outside := by
      cases hleave with
      | leave ht => rw [ht]; decide
    have hget := h.get ht
    have honce : (s.get t).toOnce = s.toOnce := by
      simp only [ThreadSingleton.get]
      split <;> rfl
    refine hget.once (l := .leave t) (honce ▸ hleave) nofun fun hnot hcomplete => hnot ?_
    exact Once.complete_step (honce ▸ hcomplete) hleave
  | exit ht hended => exact h.exit ht hended

theorem reachable_owned (h : (threadSingletonRuns τ).Reachable s) : s.Owned := by
  refine h.invariant ?_ fun s l s' _ hs hstep => hs.step hstep
  rintro s rfl
  exact owned_start

/-- In every run of any number of threads that call `get` and end: the key is made once at most;
    the calls of a thread return the object that the thread made, of which there is one for each
    thread at most; and an object is deleted when its thread has ended and not before, once. -/
theorem own_objects (s : ThreadSingleton τ) (h : (threadSingletonRuns τ).Reachable s) :
    s.keys ≤ 1 ∧ (∀ x ∈ s.got, s.owner[x.2]? = some x.1) ∧ s.owner.Nodup ∧
      (∀ t p, s.owner[p]? = some t → (p ∈ s.deleted ↔ s.ended t = true)) ∧ s.deleted.Nodup := by
  have hs := reachable_owned h
  exact ⟨hs.one_key, hs.got, hs.nodup, hs.deleted_iff, hs.deleted⟩

theorem reachable_step (h : (threadSingletonRuns τ).Reachable s) (hstep : Step s l s') :
    (threadSingletonRuns τ).Reachable s' := .next l h hstep

theorem reachable_once {o : Once τ} {l : OnceStep τ} (h : (threadSingletonRuns τ).Reachable s)
    (hstep : Once.Step s.toOnce l o) (hcall : ∀ t, l = .call t → s.ended t = false)
    (hfinish : ∀ t, l ≠ .finish t) (hleave : ∀ t, l ≠ .leave t) :
    (threadSingletonRuns τ).Reachable { s with toOnce := o } :=
  reachable_step h (.once hstep hcall hfinish hleave)

/-- A thread makes its object and ends, and another one makes its own. -/
theorem own_objects_two : ∃ s : ThreadSingleton Bool, s.got = [(true, 0), (false, 1)] ∧
    s.keys ≤ 1 ∧ (∀ x ∈ s.got, s.owner[x.2]? = some x.1) ∧ s.owner.Nodup ∧
      (∀ t p, s.owner[p]? = some t → (p ∈ s.deleted ↔ s.ended t = true)) ∧ s.deleted.Nodup := by
  have hstart : (threadSingletonRuns Bool).Reachable (start Bool) := .start rfl
  have hcall := reachable_once hstart (.call (t := true) rfl) (fun _ _ => rfl) nofun nofun
  have hinit := reachable_once hcall (.start (t := true) rfl rfl) nofun nofun nofun
  have hkey := reachable_step hinit (.makeKey (.finish (t := true) rfl))
  have hget := reachable_step hkey (.get (.leave (t := true) rfl))
  have hend := reachable_step hget (.exit (t := true) rfl rfl)
  have hother := reachable_once hend (.call (t := false) rfl)
    (fun t ht => by cases ht; rfl) nofun nofun
  have hpass := reachable_once hother (.pass (t := false) rfl rfl) nofun nofun nofun
  have hown := reachable_step hpass (.get (.leave (t := false) rfl))
  exact ⟨_, rfl, own_objects _ hown⟩

end ThreadSingleton

end Codechiev
