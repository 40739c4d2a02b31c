import Codechiev.Library.Multimap
import Mathlib.Data.Rat.Floor
import Mathlib.Tactic.Linarith
import Mathlib.Tactic.NormNum

/-!
# `net::Timer` and `net::TimerQueue`

A one-shot timerfd and the queue of tasks above it. `addTask` inserts a task without touching the
timer when the first task in the queue expires at most a tolerance later, runs it at once when it
is due, and otherwise inserts it and arms the timer for it. `expire` takes tasks off the front of
the queue, sampling the clock anew for each, and arms the timer for the first one that is not due.

Times are milliseconds. The clock is a natural number, expiries are any integers. The code has
`int64_t` and goes over `double` to the seconds; within `10 ^ 15` milliseconds of zero this is the
same (`InRange.toInt_sub`, `MILLIS_TO_SECS_eq`), and what is said of the queue is said of these
times.
-/

namespace Codechiev

/-- `it_value` of a `struct itimerspec` whose interval is zero. -/
structure Itimerspec where
  tv_sec : ℤ
  tv_nsec : ℤ

/-- A timerfd: not armed, armed for a time, or expired and not read yet. -/
inductive TimerFd where
  | disarmed
  | armed (millis : ℤ)
  | fired
  deriving DecidableEq

/-- `millis * .001`, converted to `time_t`: the whole seconds, for times `InRange`. -/
def MILLIS_TO_SECS (millis : ℤ) : ℤ := millis.tdiv 1000

def MILLIS_TO_NANOS (millis : ℤ) : ℤ := millis.tmod 1000 * 1000000

namespace TimerFd

/-- `::timerfd_settime(..., TFD_TIMER_ABSTIME, ...)`. An invalid time is refused, zero disarms, and
    any other time arms the timer and discards an expiration that was not read. -/
def settime (t : TimerFd) (value : Itimerspec) : TimerFd :=
  if value.tv_sec < 0 ∨ value.tv_nsec < 0 ∨ 1000000000 ≤ value.tv_nsec then t
  else if value.tv_sec = 0 ∧ value.tv_nsec = 0 then .disarmed
  else .armed (value.tv_sec * 1000 + value.tv_nsec / 1000000)

/-- `Timer::expireAt(int64_t)`. -/
def expireAt (t : TimerFd) (millis : ℤ) : TimerFd :=
  t.settime ⟨MILLIS_TO_SECS millis, MILLIS_TO_NANOS millis⟩

/-- `::read`, which takes the expiration. -/
def read : TimerFd → TimerFd
  | fired => disarmed
  | t => t

/-- Armed, or fired with the expiration still to be read. -/
def Live (t : TimerFd) : Prop := t ≠ disarmed

instance (t : TimerFd) : Decidable t.Live := inferInstanceAs (Decidable (_ ≠ _))

theorem live_armed (millis : ℤ) : (armed millis).Live := by
  intro h
  cases h

theorem live_fired : fired.Live := by
  intro h
  cases h

theorem expireAt_of_pos (t : TimerFd) {millis : ℤ} (h : 0 < millis) :
    t.expireAt millis = .armed millis := by
  have hdiv := Int.tdiv_eq_ediv_of_nonneg (b := 1000) h.le
  have hmod := Int.tmod_eq_emod_of_nonneg (b := 1000) h.le
  simp only [expireAt, settime, MILLIS_TO_SECS, MILLIS_TO_NANOS]
  simp only [hdiv, hmod]
  rw [if_neg (by omega), if_neg (by omega)]
  congr 1
  omega

end TimerFd

/-- `TIMER_ACCURACY`. -/
def TIMER_ACCURACY : ℤ := 30

/-- `tasks_` and the timer of a `TimerQueue`. -/
structure TimerQueue (α : Type*) where
  tasks : Multimap ℤ α
  timer : TimerFd

/-- What one turn of the loop of `expire` does: end with the queue empty, take the first entry, or
    arm the timer for it and end. -/
inductive Turn (α : Type*) where
  | drained
  | took (entry : ℤ × α) (q : TimerQueue α)
  | rearmed (q : TimerQueue α)

namespace TimerQueue

variable {α : Type*}

/-- The constructor. -/
def new : TimerQueue α := ⟨∅, .disarmed⟩

/-- The test of the first branch of `addTask`: the first task in the queue expires less than the
    tolerance later. -/
def Joins (q : TimerQueue α) (expired : ℤ) : Prop :=
  match q.tasks.entries with
  | [] => False
  | e :: _ => e.1 - expired < TIMER_ACCURACY

instance (q : TimerQueue α) (expired : ℤ) : Decidable (q.Joins expired) := by
  simp only [Joins]
  split <;> infer_instance

/-- The test of the second branch of `addTask` and of the loop of `expire`. -/
def Due (expired : ℤ) (now : ℕ) : Prop := expired - now < TIMER_ACCURACY

instance (expired : ℤ) (now : ℕ) : Decidable (Due expired now) :=
  inferInstanceAs (Decidable (_ < _))

/-- The first branch of `addTask`. -/
def insertTask (q : TimerQueue α) (expired : ℤ) (task : α) : TimerQueue α :=
  { q with tasks := q.tasks.insert expired task }

/-- The last branch of `addTask`. -/
def insertAndArm (q : TimerQueue α) (expired : ℤ) (task : α) : TimerQueue α :=
  { tasks := q.tasks.insert expired task, timer := q.timer.expireAt expired }

/-- `addTask(int64_t, const timer_cb&)` at a time: the queue, and the task if it is run at
    once. -/
def addTask (q : TimerQueue α) (now : ℕ) (expired : ℤ) (task : α) : TimerQueue α × Option α :=
  if q.Joins expired then (q.insertTask expired task, none)
  else if Due expired now then (q, some task)
  else (q.insertAndArm expired task, none)

/-- One turn of the loop of `expire`, with the time it samples. -/
def expireTurn (q : TimerQueue α) (now : ℕ) : Turn α :=
  match q.tasks.entries with
  | [] => .drained
  | e :: _ =>
    if Due e.1 now then .took e { q with tasks := q.tasks.tail }
    else .rearmed { q with timer := q.timer.expireAt e.1 }

/-- The loop of `expire`, with the times it samples, one for each turn that finds a task: the batch
    and the queue that is left. A loop that runs out of times has not ended, and is `none`. -/
def expireLoop (q : TimerQueue α) : List ℕ → Option (List (ℤ × α) × TimerQueue α)
  | [] => if q.tasks.entries.isEmpty then some ([], q) else none
  | now :: samples =>
    match q.expireTurn now with
    | .drained => some ([], q)
    | .took e q' => (q'.expireLoop samples).map fun out => (e :: out.1, out.2)
    | .rearmed q' => some ([], q')

/-! ## What `addTask` does -/

variable {q q' : TimerQueue α} {now : ℕ}

/-- The three branches of `addTask`. -/
theorem addTask_cases (q : TimerQueue α) (now : ℕ) (expired : ℤ) (task : α) :
    (q.Joins expired ∧ q.addTask now expired task = (q.insertTask expired task, none)) ∨
      (¬ q.Joins expired ∧ Due expired now ∧ q.addTask now expired task = (q, some task)) ∨
      (¬ q.Joins expired ∧ ¬ Due expired now ∧
        q.addTask now expired task = (q.insertAndArm expired task, none)) := by
  simp only [addTask]
  split
  · exact .inl ⟨‹_›, rfl⟩
  · split
    · exact .inr (.inl ⟨‹_›, ‹_›, rfl⟩)
    · exact .inr (.inr ⟨‹_›, ‹_›, rfl⟩)

/-- The first branch finds a queue that is not empty. -/
theorem Joins.exists_first {expired : ℤ} (h : q.Joins expired) :
    ∃ e rest, q.tasks.entries = e :: rest ∧ e.1 - expired < TIMER_ACCURACY := by
  simp only [Joins] at h
  split at h
  · exact h.elim
  · rename_i e rest hq
    exact ⟨e, rest, hq, h⟩

/-- When the first branch is not taken, every task in the queue expires at least the tolerance
    later. -/
theorem le_of_not_joins {expired : ℤ} (h : ¬ q.Joins expired) {x : ℤ × α}
    (hx : x ∈ q.tasks.entries) : expired + TIMER_ACCURACY ≤ x.1 := by
  simp only [Joins] at h
  split at h
  · rename_i hq
    rw [hq] at hx
    exact absurd hx List.not_mem_nil
  · rename_i e rest hq
    have := Multimap.head_le hq hx
    omega

/-- A call of `addTask` that arms the timer arms it for the new task. -/
theorem insertAndArm_timer {expired : ℤ} (task : α) (h : ¬ Due expired now) :
    (q.insertAndArm expired task).timer = .armed expired :=
  TimerFd.expireAt_of_pos _ (by simp only [Due, TIMER_ACCURACY] at h; omega)

/-! ## What a turn does -/

theorem expireTurn_drained (h : q.expireTurn now = .drained) : q.tasks.entries = [] := by
  simp only [expireTurn] at h
  split at h
  · assumption
  · split at h <;> cases h

theorem expireTurn_took {e : ℤ × α} (h : q.expireTurn now = .took e q') :
    q.tasks.entries = e :: q'.tasks.entries ∧ Due e.1 now ∧ q'.timer = q.timer := by
  simp only [expireTurn] at h
  split at h
  · cases h
  · rename_i e' rest hq
    split at h
    · rename_i hdue
      obtain ⟨rfl, rfl⟩ : e' = e ∧ { q with tasks := q.tasks.tail } = q' := by simpa using h
      exact ⟨by simp [hq], hdue, rfl⟩
    · cases h

theorem expireTurn_rearmed (h : q.expireTurn now = .rearmed q') :
    ∃ e rest, q.tasks.entries = e :: rest ∧ ¬ Due e.1 now ∧ q'.tasks = q.tasks ∧
      q'.timer = .armed e.1 := by
  simp only [expireTurn] at h
  split at h
  · cases h
  · rename_i e rest hq
    split at h
    · cases h
    · rename_i hdue
      have hpos : 0 < e.1 := by simp only [Due, TIMER_ACCURACY] at hdue; omega
      obtain rfl : { q with timer := q.timer.expireAt e.1 } = q' := by simpa using h
      exact ⟨e, rest, hq, hdue, rfl, TimerFd.expireAt_of_pos _ hpos⟩

/-! ## What the loop does -/

/-- The loop takes the longest prefix of the queue whose tasks are due at the times sampled for
    them. If a task is left, the timer is armed for it. -/
theorem expireLoop_spec {samples : List ℕ} {batch : List (ℤ × α)}
    (h : q.expireLoop samples = some (batch, q')) :
    q.tasks.entries = batch ++ q'.tasks.entries ∧
      List.Forall₂ (fun e now => Due e.1 now) batch (samples.take batch.length) ∧
      ((q'.tasks.entries = [] ∧ q'.timer = q.timer) ∨
        ∃ e rest now, q'.tasks.entries = e :: rest ∧ samples[batch.length]? = some now ∧
          ¬ Due e.1 now ∧ q'.timer = .armed e.1) := by
  -- one sample for each turn that finds a task
  induction samples generalizing q batch with
  | nil =>
    simp only [expireLoop] at h
    split at h
    · rename_i hempty
      obtain ⟨rfl, rfl⟩ : [] = batch ∧ q = q' := by simpa using h
      have hnil : q.tasks.entries = [] := List.isEmpty_iff.mp hempty
      exact ⟨by simp, by simp, .inl ⟨hnil, rfl⟩⟩
    · cases h
  | cons now samples ih =>
    simp only [expireLoop] at h
    split at h
    · rename_i hturn
      obtain ⟨rfl, rfl⟩ : [] = batch ∧ q = q' := by simpa using h
      exact ⟨by simp, by simp, .inl ⟨expireTurn_drained hturn, rfl⟩⟩
    · rename_i e q₁ hturn
      obtain ⟨hentries, hdue, htimer⟩ := expireTurn_took hturn
      obtain ⟨⟨batch', q₂⟩, hloop, heq⟩ := Option.map_eq_some_iff.mp h
      obtain ⟨rfl, rfl⟩ : e :: batch' = batch ∧ q₂ = q' := by simpa using heq
      obtain ⟨hfront, hall, hend⟩ := ih hloop
      refine ⟨by rw [hentries, hfront, List.cons_append], ?_, ?_⟩
      · rw [List.length_cons, List.take_succ_cons]
        exact .cons hdue hall
      · rw [← htimer]
        simpa using hend
    · rename_i q₁ hturn
      obtain ⟨rfl, rfl⟩ : [] = batch ∧ q₁ = q' := by simpa using h
      obtain ⟨e, rest, hentries, hdue, htasks, htimer⟩ := expireTurn_rearmed hturn
      refine ⟨by rw [htasks, List.nil_append], by simp, .inr ⟨e, rest, now, ?_, rfl, hdue, htimer⟩⟩
      rw [htasks, hentries]

theorem Due.mono {expired : ℤ} {now' : ℕ} (h : Due expired now) (hle : now ≤ now') :
    Due expired now' := by
  simp only [Due] at h ⊢
  omega

/-- What was due at the times sampled is due when they have passed. -/
theorem due_of_samples {batch : List (ℤ × α)} {samples : List ℕ}
    (h : List.Forall₂ (fun e now => Due e.1 now) batch samples) (hle : ∀ t ∈ samples, t ≤ now) :
    ∀ e ∈ batch, Due e.1 now := by
  induction h with
  | nil => simp
  | cons hdue _ ih =>
    rw [List.forall_mem_cons] at hle ⊢
    exact ⟨hdue.mono hle.1, ih hle.2⟩

end TimerQueue

/-! ## The range of the times -/

/-- The times, some 30 000 years around the epoch, for which the arithmetic of the code is exact. -/
def InRange (millis : ℤ) : Prop := -10 ^ 15 ≤ millis ∧ millis ≤ 10 ^ 15

/-- The differences that `addTask` and `expire` test do not overflow. -/
theorem InRange.toInt_sub {a b : ℤ} (ha : InRange a) (hb : InRange b) :
    (Int64.ofInt a - Int64.ofInt b).toInt = a - b := by
  obtain ⟨ha₁, ha₂⟩ := ha
  obtain ⟨hb₁, hb₂⟩ := hb
  rw [Int64.toInt_sub, Int64.toInt_ofInt_of_le (by omega) (by omega),
    Int64.toInt_ofInt_of_le (by omega) (by omega)]
  exact Int.bmod_eq_of_le (by omega) (by omega)

/-- The conversion of a `double` to `time_t`. -/
def toTime (x : ℚ) : ℤ := if 0 ≤ x then ⌊x⌋ else ⌈x⌉

/-- `.001`: the `double` next to it, which is a little more. -/
def thousandth : ℚ := 1152921504606847 / 2 ^ 60

/-- What is used of the rounding of a product to a `double`: it keeps the order, and leaves a
    multiple of `1 / 1024` as it is. -/
structure Rounding (round : ℚ → ℚ) : Prop where
  mono : Monotone round
  exact : ∀ k : ℤ, |k| ≤ 2 ^ 52 → round (k / 1024) = k / 1024

theorem toTime_of_nonneg {x : ℚ} {q : ℤ} (hq : 0 ≤ q) (hle : q ≤ x) (hlt : x < q + 1) :
    toTime x = q := by
  have hx : 0 ≤ x := le_trans (by exact_mod_cast hq) hle
  rw [toTime, if_pos hx, Int.floor_eq_iff]
  exact ⟨hle, hlt⟩

theorem toTime_of_nonpos {x : ℚ} {q : ℤ} (hq : q ≤ 0) (hle : x ≤ q) (hlt : q - 1 < x) :
    toTime x = q := by
  have hx : x ≤ 0 := le_trans hle (by exact_mod_cast hq)
  rw [toTime]
  split
  · rename_i h
    obtain rfl : x = 0 := le_antisymm hx h
    have hq0 : 0 ≤ q := by exact_mod_cast hle
    obtain rfl : q = 0 := le_antisymm hq hq0
    simp
  · rw [Int.ceil_eq_iff]
    exact ⟨hlt, hle⟩

/-- A product stays between the multiples of `1 / 1024` that it lies between. -/
theorem Rounding.within {round : ℚ → ℚ} (h : Rounding round) {x : ℚ} {a b : ℤ} (ha : |a| ≤ 2 ^ 52)
    (hb : |b| ≤ 2 ^ 52) (hax : (a / 1024 : ℚ) ≤ x) (hxb : x ≤ b / 1024) :
    (a / 1024 : ℚ) ≤ round x ∧ round x ≤ b / 1024 :=
  ⟨h.exact a ha ▸ h.mono hax, h.exact b hb ▸ h.mono hxb⟩

/-- The product with `.001` reaches no whole second that the time has not reached: it is too large
    by less than `1 / 1024`. -/
theorem MILLIS_TO_SECS_eq {round : ℚ → ℚ} (hround : Rounding round) {millis : ℤ}
    (hm : InRange millis) : toTime (round (millis * thousandth)) = MILLIS_TO_SECS millis := by
  obtain ⟨hlow, hhigh⟩ := hm
  have hlow' : (-10 ^ 15 : ℚ) ≤ millis := by exact_mod_cast hlow
  have hhigh' : (millis : ℚ) ≤ 10 ^ 15 := by exact_mod_cast hhigh
  rw [thousandth]
  rcases le_total 0 millis with h | h
  · have hsecs : MILLIS_TO_SECS millis = millis / 1000 := Int.tdiv_eq_ediv_of_nonneg h
    set q := millis / 1000 with hq
    have hge : (1000 * q : ℚ) ≤ millis := by exact_mod_cast (by omega : 1000 * q ≤ millis)
    have hle : (millis : ℚ) ≤ 1000 * q + 999 := by
      exact_mod_cast (by omega : millis ≤ 1000 * q + 999)
    have hnonneg : (0 : ℚ) ≤ millis := by exact_mod_cast h
    obtain ⟨hfloor, hceil⟩ := hround.within (x := millis * (1152921504606847 / 2 ^ 60))
      (a := 1024 * q) (b := 1024 * q + 1023) (by rw [abs_le]; omega) (by rw [abs_le]; omega)
      (by push_cast; linarith) (by push_cast; linarith)
    push_cast at hfloor hceil
    rw [hsecs]
    exact toTime_of_nonneg (by omega) (by linarith) (by linarith)
  · have hsecs : MILLIS_TO_SECS millis = -(-millis / 1000) := by
      have hneg : millis.tdiv 1000 = -((-millis).tdiv 1000) := by rw [Int.neg_tdiv, neg_neg]
      rw [MILLIS_TO_SECS, hneg, Int.tdiv_eq_ediv_of_nonneg (by omega)]
    set q := -(-millis / 1000) with hq
    have hle : (millis : ℚ) ≤ 1000 * q := by exact_mod_cast (by omega : millis ≤ 1000 * q)
    have hge : (1000 * q - 999 : ℚ) ≤ millis := by
      exact_mod_cast (by omega : 1000 * q - 999 ≤ millis)
    have hnonpos : (millis : ℚ) ≤ 0 := by exact_mod_cast h
    obtain ⟨hfloor, hceil⟩ := hround.within (x := millis * (1152921504606847 / 2 ^ 60))
      (a := 1024 * q - 1023) (b := 1024 * q) (by rw [abs_le]; omega) (by rw [abs_le]; omega)
      (by push_cast; linarith) (by push_cast; linarith)
    push_cast at hfloor hceil
    rw [hsecs]
    exact toTime_of_nonpos (by omega) (by linarith) (by linarith)

end Codechiev
