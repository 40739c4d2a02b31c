import Mathlib.Data.List.Sort

/-!
# Multimaps

A multimap as the list of its entries, in the order of an iteration from `begin()`: by key, and
entries with equal keys in the order they were inserted. `insert` puts an entry behind the ones
with its key, and `erase` at the front is `tail`. The order of insertion is a consequence: any
relation that puts new entries behind old ones of equal key is kept (`pairwise_insert`).
-/

/-- A multimap from `κ` to `α`: its entries, sorted by key. -/
structure Multimap (κ α : Type*) [LinearOrder κ] where
  entries : List (κ × α)
  sorted : entries.Pairwise fun a b => a.1 ≤ b.1

namespace Multimap

variable {κ α : Type*} [LinearOrder κ] {m : Multimap κ α} {x y : κ × α} {rest : List (κ × α)}

instance : EmptyCollection (Multimap κ α) := ⟨⟨[], .nil⟩⟩

/-- The position of a new entry: in front of the first one with a greater key. -/
def insertEntry (x : κ × α) (l : List (κ × α)) : List (κ × α) :=
  l.orderedInsert (fun a b => a.1 < b.1) x

/-- An order in which the new entry stands behind the entries with a key up to its own, and in
    front of the others, is kept. -/
theorem pairwise_insertEntry {R : κ × α → κ × α → Prop} {l : List (κ × α)}
    (hl : l.Pairwise R) (hsorted : l.Pairwise fun a b => a.1 ≤ b.1)
    (hbefore : ∀ y ∈ l, y.1 ≤ x.1 → R y x) (hafter : ∀ y ∈ l, x.1 < y.1 → R x y) :
    (insertEntry x l).Pairwise R := by
  induction l with
  | nil => simp [insertEntry]
  | cons y l ih =>
    rw [List.pairwise_cons] at hl hsorted
    rw [insertEntry, List.orderedInsert_cons]
    split
    · rename_i hlt
      have hall : ∀ z ∈ y :: l, x.1 < z.1 := by
        intro z hz
        rcases List.mem_cons.mp hz with rfl | hz
        · exact hlt
        · exact hlt.trans_le (hsorted.1 z hz)
      exact List.pairwise_cons.mpr
        ⟨fun z hz => hafter z hz (hall z hz), List.pairwise_cons.mpr hl⟩
    · rename_i hle
      refine List.pairwise_cons.mpr ⟨fun z hz => ?_, ?_⟩
      · rcases (List.mem_orderedInsert _).mp hz with rfl | hz
        · exact hbefore y List.mem_cons_self (not_lt.mp hle)
        · exact hl.1 z hz
      · exact ih hl.2 hsorted.2 (fun z hz => hbefore z (List.mem_cons_of_mem _ hz))
          fun z hz => hafter z (List.mem_cons_of_mem _ hz)

/-- `insert`: behind the entries with the same key. -/
def insert (m : Multimap κ α) (k : κ) (a : α) : Multimap κ α where
  entries := insertEntry (k, a) m.entries
  sorted := pairwise_insertEntry m.sorted m.sorted (fun _ _ h => h) fun _ _ h => h.le

/-- What is left after the first entry is erased. -/
def tail (m : Multimap κ α) : Multimap κ α where
  entries := m.entries.tail
  sorted := m.sorted.tail

@[simp] theorem entries_tail : m.tail.entries = m.entries.tail := rfl

theorem insert_perm (m : Multimap κ α) (k : κ) (a : α) :
    (m.insert k a).entries.Perm ((k, a) :: m.entries) :=
  List.perm_orderedInsert _ _ _

theorem mem_insert {k : κ} {a : α} : y ∈ (m.insert k a).entries ↔ y = (k, a) ∨ y ∈ m.entries :=
  List.mem_orderedInsert _

theorem insert_ne_nil (m : Multimap κ α) (k : κ) (a : α) : (m.insert k a).entries ≠ [] :=
  List.ne_nil_of_mem (mem_insert.mpr (.inl rfl))

/-- `pairwise_insertEntry` for `insert`. -/
theorem pairwise_insert {R : κ × α → κ × α → Prop} {k : κ} {a : α}
    (hm : m.entries.Pairwise R) (hbefore : ∀ y ∈ m.entries, y.1 ≤ k → R y (k, a))
    (hafter : ∀ y ∈ m.entries, k < y.1 → R (k, a) y) : (m.insert k a).entries.Pairwise R :=
  pairwise_insertEntry hm m.sorted hbefore hafter

/-- The first entry has the least key. -/
theorem head_le (h : m.entries = x :: rest) (hy : y ∈ m.entries) : x.1 ≤ y.1 := by
  have hsorted := m.sorted
  rw [h] at hy hsorted
  rcases List.mem_cons.mp hy with rfl | hy
  · exact le_rfl
  · exact (List.pairwise_cons.mp hsorted).1 y hy

/-- The first entry after an insertion: the old one, or the new one if its key is smaller or there
    was none. -/
theorem head_insert {k : κ} {a : α} (h : (m.insert k a).entries = x :: rest) :
    x.1 ≤ k ∧ ∀ y ∈ m.entries, x.1 ≤ y.1 :=
  ⟨head_le h (mem_insert.mpr (.inl rfl)), fun _ hy => head_le h (mem_insert.mpr (.inr hy))⟩

theorem first_insert {k : κ} {a : α} (h : (m.insert k a).entries = x :: rest) :
    x = (k, a) ∨ x ∈ m.entries := mem_insert.mp (h ▸ List.mem_cons_self)

end Multimap
