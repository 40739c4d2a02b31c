import Mathlib.Data.List.Basic
import Mathlib.Tactic.Common

/-!
# `DBManager`

The connection pool of `SqlManager.h`, with the class it is instantiated with, `PSql`. A
connection is free when its flag `inUse_` is off. `getDB` hands out the first free one, as a
pointer to its object, here its place in `dbs_`; the null pointer is `none`.
-/

namespace Codechiev

/-- The number of a `PGconn`, in the order in which `PQconnectdb` made them. -/
abbrev ConnId := ℕ

/-- `class PSql`. -/
structure PSql where
  conn : ConnId
  inUse : Bool
  deriving DecidableEq

namespace PSql

def isInUse (db : PSql) : Bool := db.inUse

def setUsed (db : PSql) (used : Bool) : PSql := { db with inUse := used }

end PSql

/-- `DBManager<PSql, Number>`. -/
structure DBManager where
  dbs : List PSql

namespace DBManager

/-- `getDB()`. -/
def getDB (m : DBManager) : DBManager × Option ℕ :=
  match m.dbs.findIdx? (fun db => !db.isInUse) with
  | some i => ({ dbs := m.dbs.modify i (·.setUsed true) }, some i)
  | none => (m, none)

/-- `returnDB(db_ptr&)`. -/
def returnDB (m : DBManager) : Option ℕ → DBManager
  | some i => { dbs := m.dbs.modify i (·.setUsed false) }
  | none => m

/-- Some connection is free. -/
def HasFree (m : DBManager) : Prop := ∃ db ∈ m.dbs, db.inUse = false

instance (m : DBManager) : Decidable m.HasFree :=
  inferInstanceAs (Decidable (∃ db ∈ m.dbs, db.inUse = false))

/-- What the pool looks like while the connection at `i` is leased. -/
def lease (m : DBManager) (i : ℕ) : DBManager := { dbs := m.dbs.modify i (·.setUsed true) }

variable {m : DBManager}

theorem getDB_of_not_hasFree (h : ¬ m.HasFree) : m.getDB = (m, none) := by
  have hnone : m.dbs.findIdx? (fun db => !db.isInUse) = none := by
    rw [List.findIdx?_eq_none_iff]
    intro db hdb
    by_contra hfree
    exact h ⟨db, hdb, by simpa [PSql.isInUse] using hfree⟩
  rw [getDB, hnone]

/-- The connection handed out was free. -/
theorem getDB_of_hasFree (h : m.HasFree) :
    ∃ i db, m.getDB = (m.lease i, some i) ∧ m.dbs[i]? = some db ∧ db.inUse = false := by
  obtain ⟨db, hdb, hfree⟩ := h
  cases hidx : m.dbs.findIdx? (fun db => !db.isInUse) with
  | none =>
    rw [List.findIdx?_eq_none_iff] at hidx
    have := hidx db hdb
    simp [PSql.isInUse, hfree] at this
  | some i =>
    obtain ⟨hi, hp, -⟩ := List.findIdx?_eq_some_iff_getElem.mp hidx
    refine ⟨i, m.dbs[i], ?_, List.getElem?_eq_getElem hi, ?_⟩
    · rw [getDB, hidx, lease]
    · simpa [PSql.isInUse] using hp

theorem lease_getElem? (m : DBManager) (i j : ℕ) :
    (m.lease i).dbs[j]? = if i = j then m.dbs[j]?.map (·.setUsed true) else m.dbs[j]? := by
  rw [lease, List.getElem?_modify]
  split <;> cases m.dbs[j]? <;> rfl

/-- Leasing does not change which connections there are. -/
theorem lease_conns (m : DBManager) (i : ℕ) :
    (m.lease i).dbs.map PSql.conn = m.dbs.map PSql.conn := by
  apply List.ext_getElem?
  intro j
  rw [List.getElem?_map, List.getElem?_map, lease_getElem?]
  split
  · rw [Option.map_map]
    rfl
  · rfl

/-- What is free while the connection at `i` is leased was free before, and is another one. -/
theorem free_of_lease {i j : ℕ} {db : PSql} (h : (m.lease i).dbs[j]? = some db)
    (hfree : db.inUse = false) : i ≠ j ∧ m.dbs[j]? = some db := by
  rw [lease_getElem?] at h
  split at h
  · obtain ⟨db', -, rfl⟩ := Option.map_eq_some_iff.mp h
    cases hfree
  · rename_i hne
    exact ⟨hne, h⟩

/-- Returned, the connection is free as it was before. -/
theorem returnDB_lease {i : ℕ} {db : PSql} (hdb : m.dbs[i]? = some db) (hfree : db.inUse = false) :
    (m.lease i).returnDB (some i) = m := by
  obtain ⟨hi, hget⟩ := List.getElem?_eq_some_iff.mp hdb
  simp only [lease, returnDB]
  congr 1
  apply List.ext_getElem?
  intro j
  rw [List.getElem?_modify, List.getElem?_modify]
  by_cases hj : i = j
  · subst hj
    rw [hdb]
    cases db
    simp_all [PSql.setUsed]
  · simp [hj]

end DBManager

end Codechiev
