import Codechiev.Net.Timer

/-!
# The times that a `Timer` is armed for

`every` and `after` add a delay to the time of the clock, `expireAt` takes an absolute time. `every`
adds the nanoseconds of both without a carry into the seconds. When they come to a second or more
the kernel refuses the value, and nobody looks at what `::timerfd_settime` returned
(`arming_exact_iff`).

The two products with `.001` are taken as exact, and so are the sums of seconds.
-/

namespace Codechiev

/-- `struct timespec`. -/
structure Timespec where
  tv_sec : ℤ
  tv_nsec : ℤ
  deriving DecidableEq

namespace Timespec

/-- The nanoseconds are less than a second. -/
def Valid (t : Timespec) : Prop := 0 ≤ t.tv_nsec ∧ t.tv_nsec < 1000000000

/-- The time or duration, in nanoseconds. -/
def nanos (t : Timespec) : ℤ := t.tv_sec * 1000000000 + t.tv_nsec

end Timespec

/-- A valid time is known by its nanoseconds. -/
theorem Timespec.Valid.eq_of_nanos {s t : Timespec} (hs : s.Valid) (ht : t.Valid)
    (h : s.nanos = t.nanos) : s = t := by
  obtain ⟨sec, nsec⟩ := s
  obtain ⟨sec', nsec'⟩ := t
  simp only [Timespec.Valid, Timespec.nanos] at hs ht h
  rw [Timespec.mk.injEq]
  omega

namespace Timer

/-- What `::timerfd_settime` is passed: a `struct itimerspec` with both of its members. -/
structure NewValue where
  it_value : Timespec
  it_interval : Timespec
  deriving DecidableEq

/-- `Timer::every(int64_t millis, int64_t delay)` at the time `now` of the clock. -/
def every (now : Timespec) (millis delay : ℤ) : NewValue where
  it_value := ⟨now.tv_sec + MILLIS_TO_SECS delay, now.tv_nsec + MILLIS_TO_NANOS delay⟩
  it_interval := ⟨MILLIS_TO_SECS millis, MILLIS_TO_NANOS millis⟩

/-- `Timer::after(int64_t)`. -/
def after (now : Timespec) (millis : ℤ) : NewValue := every now 0 millis

/-- `Timer::expireAt(int64_t)`, which clears the interval. -/
def expireAt (millis : ℤ) : NewValue where
  it_value := ⟨MILLIS_TO_SECS millis, MILLIS_TO_NANOS millis⟩
  it_interval := ⟨0, 0⟩

/-- The value is valid and stands for that time and that interval, in nanoseconds. -/
structure NewValue.Denotes (v : NewValue) (time interval : ℤ) : Prop where
  value_valid : v.it_value.Valid
  value : v.it_value.nanos = time
  interval_valid : v.it_interval.Valid
  interval : v.it_interval.nanos = interval

/-- The sub-second parts of the clock and of the delay make up less than a second. -/
def NoCarry (now : Timespec) (delay : ℤ) : Prop :=
  now.tv_nsec + MILLIS_TO_NANOS delay < 1000000000

end Timer

/-! ## Milliseconds -/

/-- A duration in milliseconds is split exactly. -/
theorem MILLIS_split {millis : ℤ} (h : 0 ≤ millis) :
    0 ≤ MILLIS_TO_NANOS millis ∧ MILLIS_TO_NANOS millis < 1000000000 ∧
      MILLIS_TO_SECS millis * 1000000000 + MILLIS_TO_NANOS millis = millis * 1000000 := by
  have hdiv := Int.tdiv_eq_ediv_of_nonneg (b := 1000) h
  have hmod := Int.tmod_eq_emod_of_nonneg (b := 1000) h
  simp only [MILLIS_TO_NANOS, MILLIS_TO_SECS]
  rw [hdiv, hmod]
  omega

namespace Timer

variable {now : Timespec} {millis delay : ℤ}

theorem expireAt_denotes (h : 0 ≤ millis) : (expireAt millis).Denotes (millis * 1000000) 0 := by
  obtain ⟨hnonneg, hlt, heq⟩ := MILLIS_split h
  exact ⟨⟨hnonneg, hlt⟩, heq, ⟨le_rfl, show (0 : ℤ) < 1000000000 by decide⟩, rfl⟩

/-- What `expireAt` arms is what the timer of a `TimerQueue` is armed for. -/
theorem settime_expireAt (t : TimerFd) (millis : ℤ) :
    t.settime ⟨(expireAt millis).it_value.tv_sec, (expireAt millis).it_value.tv_nsec⟩ =
      t.expireAt millis := rfl

theorem every_interval (now : Timespec) (delay : ℤ) (h : 0 ≤ millis) :
    (every now millis delay).it_interval.Valid ∧
      (every now millis delay).it_interval.nanos = millis * 1000000 := by
  obtain ⟨hnonneg, hlt, heq⟩ := MILLIS_split h
  exact ⟨⟨hnonneg, hlt⟩, heq⟩

/-- The time that is denoted is right in any case. -/
theorem every_nanos (h : 0 ≤ delay) :
    (every now millis delay).it_value.nanos = now.nanos + delay * 1000000 := by
  obtain ⟨-, -, heq⟩ := MILLIS_split h
  simp only [every, Timespec.nanos]
  rw [← heq]
  omega

theorem every_valid_iff (millis : ℤ) (hnow : now.Valid) (h : 0 ≤ delay) :
    (every now millis delay).it_value.Valid ↔ NoCarry now delay := by
  obtain ⟨hnonneg, -, -⟩ := MILLIS_split h
  simp only [Timespec.Valid] at hnow
  simp only [every, Timespec.Valid, NoCarry]
  omega

/-- With a carry the kernel refuses the value, and the timer stays as it was. -/
theorem settime_every_of_carry (t : TimerFd) (hcarry : ¬ NoCarry now delay) :
    t.settime ⟨(every now millis delay).it_value.tv_sec,
      (every now millis delay).it_value.tv_nsec⟩ = t := by
  rw [TimerFd.settime, if_pos (.inr (.inr (not_lt.mp hcarry)))]

theorem every_denotes_iff (hnow : now.Valid) (hmillis : 0 ≤ millis) (hdelay : 0 ≤ delay) :
    (every now millis delay).Denotes (now.nanos + delay * 1000000) (millis * 1000000) ↔
      NoCarry now delay := by
  rw [← every_valid_iff millis hnow hdelay]
  obtain ⟨hvalid, heq⟩ := every_interval now delay hmillis
  exact ⟨fun h => h.value_valid, fun h => ⟨h, every_nanos hdelay, hvalid, heq⟩⟩

/-- At a time of whole milliseconds both ways arm the same time, if there is no carry. -/
theorem after_eq_expireAt_iff {n : ℤ} (hnow : now.Valid) (hdelay : 0 ≤ delay) (hn : 0 ≤ n)
    (hwhole : now.nanos = n * 1000000) :
    after now delay = expireAt (n + delay) ↔ NoCarry now delay := by
  have hat := expireAt_denotes (show 0 ≤ n + delay by omega)
  constructor
  · intro heq
    rw [← every_valid_iff 0 hnow hdelay]
    exact (congrArg NewValue.it_value heq).symm ▸ hat.value_valid
  · intro hcarry
    have hvalid := (every_valid_iff 0 hnow hdelay).mpr hcarry
    have hvalue : (every now 0 delay).it_value = (expireAt (n + delay)).it_value := by
      apply hvalid.eq_of_nanos hat.value_valid
      rw [every_nanos hdelay, hat.value, hwhole]
      omega
    rw [after, expireAt, NewValue.mk.injEq]
    exact ⟨hvalue, rfl⟩

/-- For every time of the clock, every delay, every period and every absolute time: `every` and
    `after` pass the kernel a valid value for just that time if and only if there is no carry into
    the seconds; `expireAt` always does; and at a time of whole milliseconds `after` agrees with
    it under the same condition. -/
theorem arming_exact_iff (now : Timespec) (millis delay m : ℤ) (hnow : now.Valid)
    (hmillis : 0 ≤ millis) (hdelay : 0 ≤ delay) (hm : 0 ≤ m) :
    ((every now millis delay).Denotes (now.nanos + delay * 1000000) (millis * 1000000) ∧
        (after now delay).Denotes (now.nanos + delay * 1000000) 0 ↔ NoCarry now delay) ∧
      (expireAt m).Denotes (m * 1000000) 0 ∧
      ∀ n, 0 ≤ n → now.nanos = n * 1000000 →
        (after now delay = expireAt (n + delay) ↔ NoCarry now delay) := by
  have hafter := every_denotes_iff hnow (le_refl (0 : ℤ)) hdelay
  rw [Int.zero_mul] at hafter
  refine ⟨?_, expireAt_denotes hm, fun n hn hwhole => after_eq_expireAt_iff hnow hdelay hn hwhole⟩
  rw [every_denotes_iff hnow hmillis hdelay, after, hafter, and_self_iff]

/-- 5.4 s on the clock, half a second to wait. -/
theorem arming_exact_half :
    (every ⟨5, 400000000⟩ 1000 500).Denotes 5900000000 1000000000 := by
  exact ((arming_exact_iff ⟨5, 400000000⟩ 1000 500 0 ⟨by decide, by decide⟩ (by decide) (by decide)
    le_rfl).1.mpr (by show (_ : ℤ) < _; decide)).1

/-- 5.6 s on the clock, half a second to wait: the value has 1100000000 ns. -/
theorem every_carries :
    ¬ ∀ (now : Timespec) (millis delay : ℤ), now.Valid → 0 ≤ millis → 0 ≤ delay →
      (every now millis delay).Denotes (now.nanos + delay * 1000000) (millis * 1000000) := by
  intro h
  have hvalid := (h ⟨5, 600000000⟩ 0 500 ⟨by decide, by decide⟩ le_rfl (by decide)).value_valid.2
  revert hvalid
  decide

end Timer

end Codechiev
