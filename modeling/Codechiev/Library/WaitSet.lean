import Mathlib.Data.Finset.Card

/-!
# Condition variables

A condition variable as the set of the threads that sleep on it and the set of those that were
woken and have not taken the mutex again. No thread is in both, which is carried as a field. A
signal wakes one sleeper, any one of them, and is lost when there is none. A sleeper may also wake
by itself, which is `wake` without a signal.

`Covers n` is the counting invariant of a queue with one signal for each item: if anybody sleeps,
there are at least as many woken threads as items. Each step of such a queue has its rule.
-/

/-- Who sleeps on a condition variable, and who was woken. -/
structure WaitSet (τ : Type*) where
  sleeping : Finset τ
  woken : Finset τ
  disjoint : Disjoint sleeping woken

namespace WaitSet

variable {τ : Type*}

/-- Nobody waits. -/
def empty : WaitSet τ := ⟨∅, ∅, Finset.disjoint_empty_left _⟩

variable [DecidableEq τ]

/-- Thread `t` goes to sleep, and lets go of the mutex. -/
def sleep (c : WaitSet τ) (t : τ) : WaitSet τ where
  sleeping := insert t c.sleeping
  woken := c.woken.erase t
  disjoint := by
    rw [Finset.disjoint_insert_left]
    exact ⟨Finset.notMem_erase t _, c.disjoint.mono_right (Finset.erase_subset _ _)⟩

/-- Thread `t` wakes. -/
def wake (c : WaitSet τ) (t : τ) : WaitSet τ where
  sleeping := c.sleeping.erase t
  woken := insert t c.woken
  disjoint := by
    rw [Finset.disjoint_insert_right]
    exact ⟨Finset.notMem_erase t _, c.disjoint.mono_left (Finset.erase_subset _ _)⟩

/-- A woken thread takes the mutex again. -/
def resume (c : WaitSet τ) (t : τ) : WaitSet τ where
  sleeping := c.sleeping
  woken := c.woken.erase t
  disjoint := c.disjoint.mono_right (Finset.erase_subset _ _)

/-- What a signal does. -/
inductive Signal (c : WaitSet τ) : WaitSet τ → Prop where
  | lost : c.sleeping = ∅ → Signal c c
  | wakes {t : τ} : t ∈ c.sleeping → Signal c (c.wake t)

/-- What a broadcast does. -/
def broadcast (c : WaitSet τ) : WaitSet τ where
  sleeping := ∅
  woken := c.sleeping ∪ c.woken
  disjoint := Finset.disjoint_empty_left _

/-- Thread `t` is inside the wait. -/
def Waits (c : WaitSet τ) (t : τ) : Prop := t ∈ c.sleeping ∨ t ∈ c.woken

variable {c c' : WaitSet τ} {t u : τ} {n : ℕ}

/-! ## Who waits -/

omit [DecidableEq τ] in
@[simp] theorem not_waits_empty : ¬ (empty : WaitSet τ).Waits t := by
  simp [Waits, empty]

theorem waits_sleep : (c.sleep t).Waits u ↔ u = t ∨ c.Waits u := by
  simp only [Waits, sleep, Finset.mem_insert, Finset.mem_erase]
  tauto

theorem waits_wake (ht : c.Waits t) : (c.wake t).Waits u ↔ c.Waits u := by
  simp only [Waits, wake, Finset.mem_insert, Finset.mem_erase]
  constructor
  · rintro (⟨-, h⟩ | rfl | h)
    · exact .inl h
    · exact ht
    · exact .inr h
  · tauto

theorem waits_resume (ht : t ∈ c.woken) : (c.resume t).Waits u ↔ u ≠ t ∧ c.Waits u := by
  have hdisj := Finset.disjoint_right.mp c.disjoint ht
  simp only [Waits, resume, Finset.mem_erase]
  constructor
  · rintro (h | ⟨hne, h⟩)
    · exact ⟨fun heq => hdisj (heq ▸ h), .inl h⟩
    · exact ⟨hne, .inr h⟩
  · tauto

theorem Signal.waits (h : c.Signal c') : c'.Waits u ↔ c.Waits u := by
  cases h with
  | lost => rfl
  | wakes ht => exact waits_wake (.inl ht)

theorem waits_broadcast : c.broadcast.Waits u ↔ c.Waits u := by
  simp [Waits, broadcast]

/-! ## How many are woken -/

theorem card_wake (ht : t ∈ c.sleeping) : (c.wake t).woken.card = c.woken.card + 1 :=
  Finset.card_insert_of_notMem (Finset.disjoint_left.mp c.disjoint ht)

theorem card_resume (ht : t ∈ c.woken) : (c.resume t).woken.card + 1 = c.woken.card :=
  Finset.card_erase_add_one ht

theorem card_sleep_le : (c.sleep t).woken.card ≤ c.woken.card := Finset.card_erase_le

/-- A signal wakes one thread at most. -/
theorem Signal.card_woken_le (h : c.Signal c') : c'.woken.card ≤ c.woken.card + 1 := by
  cases h with
  | lost => exact Nat.le_succ _
  | wakes ht => exact Nat.le_of_eq (card_wake ht)

theorem exists_signal (c : WaitSet τ) : ∃ c', c.Signal c' := by
  by_cases h : c.sleeping = ∅
  · exact ⟨c, .lost h⟩
  · obtain ⟨t, ht⟩ := Finset.nonempty_iff_ne_empty.mpr h
    exact ⟨c.wake t, .wakes ht⟩

/-- A signal to at most one sleeper leaves none. -/
theorem Signal.sleeping_eq_empty (h : c.Signal c') (hc : c.sleeping.card ≤ 1) :
    c'.sleeping = ∅ := by
  cases h with
  | lost h => exact h
  | @wakes t ht =>
    rw [wake, Finset.erase_eq_empty_iff]
    right
    apply Finset.eq_singleton_iff_unique_mem.mpr
    exact ⟨ht, fun u hu => Finset.card_le_one.mp hc u hu t ht⟩

/-- A signal to more than one leaves some. -/
theorem Signal.sleeping_ne_empty (h : c.Signal c') (hc : 1 < c.sleeping.card) :
    c'.sleeping ≠ ∅ := by
  intro hempty
  cases h with
  | lost h => simp [h] at hc
  | wakes ht =>
    have hcard := Finset.card_erase_add_one ht
    rw [show c.sleeping.erase _ = ∅ from hempty] at hcard
    simp at hcard
    omega

theorem Signal.sleeping_subset (h : c.Signal c') : c'.sleeping ⊆ c.sleeping := by
  cases h with
  | lost => exact fun _ hu => hu
  | wakes _ => exact Finset.erase_subset _ _

/-! ## Enough woken threads -/

/-- Nobody sleeps, or there is a woken thread for each of `n` items. -/
def Covers (c : WaitSet τ) (n : ℕ) : Prop := c.sleeping = ∅ ∨ n ≤ c.woken.card

omit [DecidableEq τ] in
theorem covers_zero : c.Covers 0 := .inr (Nat.zero_le _)

omit [DecidableEq τ] in
theorem Covers.mono {m : ℕ} (h : c.Covers n) (hle : m ≤ n) : c.Covers m := h.imp_right hle.trans

/-- One more item, and a signal. -/
theorem Covers.signal (h : c.Covers n) (hsig : c.Signal c') : c'.Covers (n + 1) := by
  cases hsig with
  | lost hempty => exact .inl hempty
  | wakes ht =>
    right
    have hne : c.sleeping ≠ ∅ := Finset.ne_empty_of_mem ht
    rw [card_wake ht]
    exact Nat.succ_le_succ (h.resolve_left hne)

/-- A woken thread takes one item. -/
theorem Covers.resume (h : c.Covers (n + 1)) (ht : t ∈ c.woken) : (c.resume t).Covers n := by
  apply h.imp_right
  intro hle
  have := card_resume ht
  omega

/-- A thread wakes by itself. -/
theorem Covers.wake (h : c.Covers n) (ht : t ∈ c.sleeping) : (c.wake t).Covers n := by
  right
  have hne : c.sleeping ≠ ∅ := Finset.ne_empty_of_mem ht
  rw [card_wake ht]
  exact (h.resolve_left hne).trans (Nat.le_succ _)

end WaitSet
