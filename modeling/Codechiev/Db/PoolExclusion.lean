import Codechiev.Db.SqlManager
import Codechiev.Library.Transition
import Mathlib.Data.List.Nodup
import Mathlib.Logic.Function.Basic

/-!
# Who holds which connection

Any number of threads call `getDB` and `returnDB`, each call under the mutex of the pool, and a
thread returns only what it holds. Ownership is the flag `inUse_` alone: it is on exactly while
some thread holds the connection (`Exclusive`), so no two threads hold the same one, the null
pointer means that all are held, and what is returned can be had again (`exclusive_leases`).
-/

namespace Codechiev

/-- The pool, and the connections that each thread has got and not returned. -/
structure PoolState (τ : Type*) where
  pool : DBManager
  held : τ → List ℕ

/-- A call by the thread `t`. -/
inductive PoolCall (τ : Type*) where
  | getDB (t : τ)
  | returnDB (t : τ) (pg : Option ℕ)

namespace PoolState

variable {τ : Type*}

/-- A connection is in use exactly if a thread holds it, which is then the only one, and holds it
    once. -/
structure Exclusive (s : PoolState τ) : Prop where
  inUse_iff : ∀ {i db}, s.pool.dbs[i]? = some db → (db.inUse = true ↔ ∃ t, i ∈ s.held t)
  unique : ∀ {i t t'}, i ∈ s.held t → i ∈ s.held t' → t = t'
  nodup : ∀ t, (s.held t).Nodup
  in_pool : ∀ {i t}, i ∈ s.held t → i < s.pool.dbs.length

/-- Nobody holds a connection that is not in use. -/
theorem Exclusive.not_held {s : PoolState τ} {i : ℕ} {db : PSql} (hs : s.Exclusive)
    (hdb : s.pool.dbs[i]? = some db) (hidle : db.inUse = false) (t : τ) : i ∉ s.held t := by
  intro hheld
  have huse := (hs.inUse_iff hdb).mpr ⟨t, hheld⟩
  rw [hidle] at huse
  cases huse

variable [DecidableEq τ]

/-- The thread has what `getDB` gave it, unless that was the null pointer. -/
def getDB (s : PoolState τ) (t : τ) : PoolState τ where
  pool := s.pool.getDB.1
  held := Function.update s.held t (s.pool.getDB.2.toList ++ s.held t)

def returnDB (s : PoolState τ) (t : τ) (pg : Option ℕ) : PoolState τ where
  pool := s.pool.returnDB pg
  held := Function.update s.held t ((s.held t).diff pg.toList)

/-- The runs of a pool of any size: at first no connection is in use, and a thread returns what it
    holds, or the null pointer. -/
def poolRuns : LabelledSystem (PoolState τ) (PoolCall τ) where
  init s := (∀ db ∈ s.pool.dbs, db.inUse = false) ∧ s.held = fun _ => []
  step s call s' :=
    match call with
    | .getDB t => s' = s.getDB t
    | .returnDB t pg => (∀ i, pg = some i → i ∈ s.held t) ∧ s' = s.returnDB t pg

/-! ## One call -/

variable {s : PoolState τ} {t : τ} {i : ℕ}

/-- `getDB` when a connection is free: the thread holds one more. -/
def leased (s : PoolState τ) (t : τ) (i : ℕ) : PoolState τ where
  pool := s.pool.lease i
  held := Function.update s.held t (i :: s.held t)

/-- `getDB` hands out a free connection, or nothing when there is none. -/
theorem getDB_cases (s : PoolState τ) (t : τ) :
    (s.pool.getDB.2 = none ∧ ¬ s.pool.HasFree ∧ s.getDB t = s) ∨
      ∃ i db, s.pool.dbs[i]? = some db ∧ db.inUse = false ∧ s.pool.getDB.2 = some i ∧
        s.getDB t = s.leased t i := by
  by_cases hfree : s.pool.HasFree
  · obtain ⟨i, db, hget, hdb, hidle⟩ := DBManager.getDB_of_hasFree hfree
    exact .inr ⟨i, db, hdb, hidle, by rw [hget], by rw [getDB, hget]; rfl⟩
  · have hget := DBManager.getDB_of_not_hasFree hfree
    refine .inl ⟨by rw [hget], hfree, ?_⟩
    rw [getDB, hget]
    show (⟨s.pool, Function.update s.held t (s.held t)⟩ : PoolState τ) = s
    rw [Function.update_eq_self]

theorem mem_leased {j : ℕ} {t' : τ} :
    j ∈ (s.leased t i).held t' ↔ j ∈ s.held t' ∨ j = i ∧ t' = t := by
  show j ∈ Function.update s.held t (i :: s.held t) t' ↔ _
  rw [Function.update_apply]
  split
  · rename_i heq
    subst heq
    simp [or_comm]
  · rename_i hne
    simp [hne]

/-- What the thread returns it holds no longer; nothing else changes hands. -/
theorem mem_returnDB (hs : s.Exclusive) {j : ℕ} {t' : τ} :
    j ∈ (s.returnDB t (some i)).held t' ↔ j ∈ s.held t' ∧ ¬ (j = i ∧ t' = t) := by
  show j ∈ Function.update s.held t ((s.held t).diff [i]) t' ↔ _
  rw [Function.update_apply]
  split
  · rename_i heq
    subst heq
    rw [List.diff_cons, List.diff_nil, (hs.nodup _).mem_erase_iff]
    simp [and_comm]
  · rename_i hne
    simp [hne]

theorem returnDB_getElem? (m : DBManager) (i j : ℕ) :
    (m.returnDB (some i)).dbs[j]? =
      if i = j then m.dbs[j]?.map (·.setUsed false) else m.dbs[j]? := by
  show (m.dbs.modify i _)[j]? = _
  rw [List.getElem?_modify]
  split <;> cases m.dbs[j]? <;> rfl

theorem Exclusive.leased (hs : s.Exclusive) {db : PSql} (hdb : s.pool.dbs[i]? = some db)
    (hidle : db.inUse = false) (t : τ) : (s.leased t i).Exclusive := by
  have hnew := hs.not_held hdb hidle
  refine ⟨?_, ?_, ?_, ?_⟩
  · intro j db' hj
    have hj : (s.pool.lease i).dbs[j]? = some db' := hj
    rw [DBManager.lease_getElem?] at hj
    split at hj
    · rename_i heq
      obtain ⟨db₀, -, rfl⟩ := Option.map_eq_some_iff.mp hj
      exact ⟨fun _ => ⟨t, mem_leased.mpr (.inr ⟨heq.symm, rfl⟩)⟩, fun _ => rfl⟩
    · rename_i hne
      rw [hs.inUse_iff hj]
      simp [mem_leased, Ne.symm hne]
  · intro j t₁ t₂ h₁ h₂
    rcases mem_leased.mp h₁ with hold₁ | ⟨hj, ht₁⟩
    · rcases mem_leased.mp h₂ with hold₂ | ⟨hj, -⟩
      · exact hs.unique hold₁ hold₂
      · exact absurd (hj ▸ hold₁) (hnew t₁)
    · rcases mem_leased.mp h₂ with hold₂ | ⟨-, ht₂⟩
      · exact absurd (hj ▸ hold₂) (hnew t₂)
      · exact ht₁.trans ht₂.symm
  · intro t'
    show (Function.update s.held t (i :: s.held t) t').Nodup
    rw [Function.update_apply]
    split
    · exact List.nodup_cons.mpr ⟨hnew t, hs.nodup t⟩
    · exact hs.nodup t'
  · intro j t' hj
    have hlen : (s.leased t i).pool.dbs.length = s.pool.dbs.length := List.length_modify ..
    rw [hlen]
    rcases mem_leased.mp hj with hj | ⟨rfl, -⟩
    · exact hs.in_pool hj
    · exact (List.getElem?_eq_some_iff.mp hdb).1

theorem Exclusive.getDB (hs : s.Exclusive) (t : τ) : (s.getDB t).Exclusive := by
  rcases getDB_cases s t with ⟨-, -, heq⟩ | ⟨i, db, hdb, hidle, -, heq⟩
  · rw [heq]
    exact hs
  · rw [heq]
    exact hs.leased hdb hidle t

theorem Exclusive.returnDB (hs : s.Exclusive) {pg : Option ℕ}
    (hheld : ∀ i, pg = some i → i ∈ s.held t) : (s.returnDB t pg).Exclusive := by
  cases pg with
  | none =>
    have hsame : s.returnDB t none = s := by
      show (⟨s.pool, Function.update s.held t ((s.held t).diff [])⟩ : PoolState τ) = s
      rw [List.diff_nil, Function.update_eq_self]
    rw [hsame]
    exact hs
  | some i =>
    have hi := hheld i rfl
    refine ⟨?_, ?_, ?_, ?_⟩
    · intro j db hj
      have hj : (s.pool.returnDB (some i)).dbs[j]? = some db := hj
      rw [returnDB_getElem?] at hj
      split at hj
      · -- the flag goes off, and the only thread that held the connection let go of it
        rename_i heq
        subst heq
        obtain ⟨db₀, -, rfl⟩ := Option.map_eq_some_iff.mp hj
        constructor
        · intro huse
          cases huse
        · rintro ⟨t', ht'⟩
          obtain ⟨hmem, hne⟩ := (mem_returnDB hs).mp ht'
          exact absurd ⟨rfl, hs.unique hmem hi⟩ hne
      · rename_i hne
        rw [hs.inUse_iff hj]
        simp [mem_returnDB hs, Ne.symm hne]
    · intro j t₁ t₂ h₁ h₂
      exact hs.unique ((mem_returnDB hs).mp h₁).1 ((mem_returnDB hs).mp h₂).1
    · intro t'
      show (Function.update s.held t ((s.held t).diff [i]) t').Nodup
      rw [Function.update_apply]
      split
      · rw [List.diff_cons, List.diff_nil]
        exact (hs.nodup t).erase i
      · exact hs.nodup t'
    · intro j t' hj
      have hlen : (s.returnDB t (some i)).pool.dbs.length = s.pool.dbs.length :=
        List.length_modify ..
      rw [hlen]
      exact hs.in_pool ((mem_returnDB hs).mp hj).1

/-! ## Runs -/

theorem reachable_exclusive (h : poolRuns.Reachable s) : s.Exclusive := by
  refine h.invariant ?_ ?_
  · rintro s ⟨hidle, hheld⟩
    have hnone : ∀ i t, i ∉ s.held t := by
      intro i t
      rw [hheld]
      exact List.not_mem_nil
    refine ⟨?_, fun hi => absurd hi (hnone _ _), ?_, fun hi => absurd hi (hnone _ _)⟩
    · intro i db hdb
      rw [hidle db (List.mem_of_getElem? hdb)]
      simp [hnone]
    · intro t
      rw [hheld]
      exact List.nodup_nil
  · intro s call s' _ hs hstep
    cases call with
    | getDB t =>
      obtain rfl := hstep
      exact hs.getDB t
    | returnDB t pg =>
      obtain ⟨hheld, rfl⟩ := hstep
      exact hs.returnDB hheld

/-- How many connections are free. -/
def freeCount (m : DBManager) : ℕ := m.dbs.countP fun db => !db.inUse

theorem freeCount_lease {m : DBManager} {db : PSql} (hdb : m.dbs[i]? = some db)
    (hidle : db.inUse = false) : freeCount (m.lease i) < freeCount m := by
  obtain ⟨hi, rfl⟩ := List.getElem?_eq_some_iff.mp hdb
  have hset : (m.lease i).dbs = m.dbs.set i (m.dbs[i].setUsed true) := by
    apply List.ext_getElem?
    intro j
    rw [DBManager.lease_getElem?, List.getElem?_set]
    split
    · rename_i heq
      subst heq
      rw [hdb]
      rfl
    · rfl
  have hpos : 0 < freeCount m :=
    List.countP_pos_iff.mpr ⟨m.dbs[i], List.getElem_mem hi, by rw [hidle]; rfl⟩
  rw [freeCount, hset, List.countP_set hi, hidle]
  show freeCount m - 1 + 0 < freeCount m
  omega

/-- A thread that keeps calling `getDB` gets every connection that is free. -/
theorem obtains (hs : s.Exclusive) {db : PSql} (hdb : s.pool.dbs[i]? = some db)
    (hidle : db.inUse = false) (t : τ) :
    ∃ k s', poolRuns.Run s (List.replicate k (.getDB t)) s' ∧ i ∈ s'.held t := by
  obtain ⟨n, hn⟩ : ∃ n, freeCount s.pool = n := ⟨_, rfl⟩
  induction n using Nat.strongRecOn generalizing s with
  | _ n ih =>
    rcases getDB_cases s t with ⟨-, hnone, -⟩ | ⟨j, db', hj, hidle', -, heq⟩
    · exact absurd ⟨db, List.mem_of_getElem? hdb, hidle⟩ hnone
    · have hstep : poolRuns.step s (.getDB t) (s.leased t j) := heq.symm
      by_cases hij : j = i
      · subst hij
        refine ⟨1, s.leased t j, .cons hstep (.nil _), mem_leased.mpr (.inr ⟨rfl, rfl⟩)⟩
      · -- another one was handed out, so fewer are free, and this one still is
        have hdb' : (s.leased t j).pool.dbs[i]? = some db := by
          show (s.pool.lease j).dbs[i]? = some db
          rw [DBManager.lease_getElem?, if_neg hij]
          exact hdb
        obtain ⟨k, s', hrun, hheld⟩ := ih _ (hn ▸ freeCount_lease hj hidle')
          (hs.leased hj hidle' t) hdb' rfl
        exact ⟨k + 1, s', .cons hstep hrun, hheld⟩

/-- In every state that any number of threads reach on a pool of any size: no connection is held
    by two threads, or twice by one; `getDB` returns null only if every connection of the pool is
    held; and once a connection is returned nobody holds it, and every thread that keeps calling
    `getDB` gets it. -/
theorem exclusive_leases (s : PoolState τ) (h : poolRuns.Reachable s) :
    (∀ i t t', i ∈ s.held t → i ∈ s.held t' → t = t') ∧ (∀ t, (s.held t).Nodup) ∧
    (s.pool.getDB.2 = none → ∀ i < s.pool.dbs.length, ∃ t, i ∈ s.held t) ∧
    (∀ i t s', poolRuns.step s (.returnDB t (some i)) s' → ∀ t', i ∉ s'.held t' ∧
      ∃ k s'', poolRuns.Run s' (List.replicate k (.getDB t')) s'' ∧ i ∈ s''.held t') := by
  have hs := reachable_exclusive h
  refine ⟨fun i t t' => hs.unique, hs.nodup, ?_, ?_⟩
  · intro hnull i hi
    by_contra hfree
    have hdb := List.getElem?_eq_getElem hi
    have hidle : s.pool.dbs[i].inUse = false := by
      rw [← Bool.not_eq_true, hs.inUse_iff hdb]
      exact hfree
    obtain ⟨j, db, hget, -⟩ := DBManager.getDB_of_hasFree ⟨_, List.getElem_mem hi, hidle⟩
    rw [hget] at hnull
    cases hnull
  · rintro i t s' ⟨hheld, rfl⟩ t'
    have hi := hs.in_pool (hheld i rfl)
    have hback : (s.returnDB t (some i)).pool.dbs[i]? = some (s.pool.dbs[i].setUsed false) := by
      show (s.pool.returnDB (some i)).dbs[i]? = _
      rw [returnDB_getElem?, if_pos rfl, List.getElem?_eq_getElem hi]
      rfl
    have hs' := hs.returnDB hheld
    exact ⟨hs'.not_held hback rfl t', obtains hs' hback rfl t'⟩

/-- One connection, and thread 0 has got it. -/
def onlyOneHeld : PoolState ℕ := PoolState.getDB ⟨⟨[⟨0, false⟩]⟩, fun _ => []⟩ 0

theorem onlyOneHeld_reachable : poolRuns.Reachable onlyOneHeld := by
  refine .next (.getDB 0) (.start ⟨?_, rfl⟩) rfl
  intro db hdb
  rw [List.mem_singleton.mp hdb]

theorem exclusive_leases_one :
    (∀ i t t', i ∈ onlyOneHeld.held t → i ∈ onlyOneHeld.held t' → t = t') ∧
    (∀ t, (onlyOneHeld.held t).Nodup) ∧
    (onlyOneHeld.pool.getDB.2 = none →
      ∀ i < onlyOneHeld.pool.dbs.length, ∃ t, i ∈ onlyOneHeld.held t) ∧
    (∀ i t s', poolRuns.step onlyOneHeld (.returnDB t (some i)) s' → ∀ t', i ∉ s'.held t' ∧
      ∃ k s'', poolRuns.Run s' (List.replicate k (.getDB t')) s'' ∧ i ∈ s''.held t') :=
  exclusive_leases onlyOneHeld onlyOneHeld_reachable

end PoolState

end Codechiev
