import Codechiev.Db.ConcurrentCalls
import Mathlib.Algebra.Order.BigOperators.Group.Finset

/-!
# Connections that are lost

An operation that leaves without `returnDB` takes its connection out of the pool for good. Whatever
the threads do, a pool of `n` connections stands `n` of these, one on each connection; after them
`getDB` has nothing to hand out, and no thread gets to the server again (`lost_connections`).
-/

namespace Codechiev

/-- Only an operation that keeps its lease does without `returnDB`. -/
theorem Operation.returnDB_mem_parts (op : Operation) : .returnDB ∈ op.parts ↔ ¬ op.Keeps := by
  obtain ⟨call, result, answers⟩ := op
  cases call <;> simp only [Operation.parts, Operation.Keeps] <;> split <;> simp [*]

namespace ConcurrentClient

open Finset

variable {τ : Type*} {s s' : ConcurrentClient τ} {t : τ} {call : InCall} {l : ClientStep τ}

/-- A thread is in an operation on the connection at `i`. -/
def Held (s : ConcurrentClient τ) (i : ℕ) : Prop := ∃ t call, s.calls t = some call ∧ call.psql = i

/-- The last operation that is over on the connection at `i` kept its lease. -/
def Lost (s : ConcurrentClient τ) (i : ℕ) : Prop := ∃ op ∈ (s.completed i).getLast?, op.Keeps

/-- How many operations kept their lease, on the first `n` connections. -/
def lostCount (s : ConcurrentClient τ) (n : ℕ) : ℕ :=
  ∑ i ∈ range n, (s.completed i).countP (·.Keeps)

/-- The connections in use are those in an operation and those that are lost, and nothing happens
    on a connection after it is lost. -/
structure Accounted (n : ℕ) (s : ConcurrentClient τ) : Prop where
  length : s.dbs.length = n
  inUse_iff : ∀ i db, s.dbs[i]? = some db → (db.inUse = true ↔ s.Held i ∨ s.Lost i)
  returned : ∀ i, ∀ op ∈ (s.completed i).dropLast, ¬ op.Keeps
  not_lost : ∀ t call, s.calls t = some call → ¬ s.Lost call.psql

/-- What a part that is not the last does to the flags. -/
theorem run_dbs_of_not_final {part : CallPart} (h : ¬ part.Final) (j : ℕ) :
    (part.run s.toClient call).1.dbs[j]? = s.dbs[j]? := by
  rw [CallPart.run_dbs, if_neg]
  rintro ⟨rfl, -⟩
  exact h trivial

/-- The last part of an operation is `returnDB` unless the operation keeps its lease. -/
theorem Underway.last_iff {db : PSql} {part : CallPart} (h : s.Underway call db)
    (hrest : call.rest = [part]) : part = .returnDB ↔ ¬ call.op.Keeps := by
  obtain ⟨ran, hparts, -⟩ := h.commands
  rw [hrest] at hparts
  have hran : .returnDB ∉ ran := by
    intro hmem
    refine not_final_of_parts call.op .returnDB ?_ trivial
    rw [hparts, List.dropLast_concat]
    exact hmem
  rw [← Operation.returnDB_mem_parts, hparts, List.mem_append, List.mem_singleton,
    or_iff_right hran, eq_comm]

/-- After the last part the connection is in use if the operation keeps its lease. -/
theorem Underway.inUse_iff_keeps {db db' : PSql} {part : CallPart} (h : s.Underway call db)
    (hrest : call.rest = [part]) (hdb' : (part.run s.toClient call).1.dbs[call.psql]? = some db') :
    db'.inUse = true ↔ call.op.Keeps := by
  rw [CallPart.run_dbs] at hdb'
  by_cases hpart : part = .returnDB
  · rw [if_pos ⟨hpart, rfl⟩, h.getElem, Option.map_some, Option.some.injEq] at hdb'
    subst hdb'
    exact iff_of_false Bool.false_ne_true ((h.last_iff hrest).mp hpart)
  · rw [if_neg fun hreturn => hpart hreturn.1, h.getElem, Option.some.injEq] at hdb'
    subst hdb'
    exact iff_of_true h.inUse (not_not.mp fun hkeeps => hpart ((h.last_iff hrest).mpr hkeeps))

namespace Accounted

variable {n : ℕ}

/-- Each connection is lost once at most. -/
theorem countP_le (h : s.Accounted n) (i : ℕ) : (s.completed i).countP (·.Keeps) ≤ 1 := by
  rcases List.eq_nil_or_concat (s.completed i) with hnil | ⟨ops, op, hops⟩
  · rw [hnil]
    exact Nat.zero_le _
  · have hzero : ops.countP (·.Keeps) = 0 := by
      rw [List.countP_eq_zero]
      intro op' hop'
      have hkeeps := h.returned i op' (by rwa [hops, List.concat_eq_append, List.dropLast_concat])
      simpa using hkeeps
    rw [hops, List.concat_eq_append, List.countP_append, hzero, Nat.zero_add]
    exact List.countP_le_length

theorem lost_of_countP (h : s.Accounted n) {i : ℕ} (hi : (s.completed i).countP (·.Keeps) = 1) :
    s.Lost i := by
  obtain ⟨op, hop, hkeeps⟩ := List.countP_pos_iff.mp (hi ▸ Nat.one_pos)
  have hkeeps : op.Keeps := by simpa using hkeeps
  have hne := List.ne_nil_of_mem hop
  refine ⟨_, List.getLast?_eq_some_getLast hne, ?_⟩
  rw [← List.dropLast_append_getLast hne, List.mem_append, List.mem_singleton] at hop
  rcases hop with hop | hop
  · exact absurd hkeeps (h.returned i op hop)
  · exact hop ▸ hkeeps

theorem sum_ones (n : ℕ) : ∑ _i ∈ range n, 1 = n := by rw [← card_eq_sum_ones, card_range]

theorem lostCount_le (h : s.Accounted n) : s.lostCount n ≤ n := by
  calc s.lostCount n ≤ ∑ _i ∈ range n, 1 := sum_le_sum fun i _ => h.countP_le i
    _ = n := sum_ones n

theorem lost_of_lostCount (h : s.Accounted n) (hn : s.lostCount n = n) {i : ℕ} (hi : i < n) :
    s.Lost i := by
  have hle : ∀ j ∈ range n, (s.completed j).countP (·.Keeps) ≤ 1 := fun j _ => h.countP_le j
  have heq : ∑ j ∈ range n, (s.completed j).countP (·.Keeps) = ∑ _j ∈ range n, 1 :=
    hn.trans (sum_ones n).symm
  exact h.lost_of_countP ((sum_eq_sum_iff_of_le hle).mp heq i (mem_range.mpr hi))

variable [DecidableEq τ]

theorem lease {op : Operation} {c : Client} {psql : ℕ} (h : s.Accounted n)
    (ht : s.calls t = none) (hget : s.getDB = (c, some psql)) :
    Accounted n { s with
      toClient := c
      calls := Function.update s.calls t (some ⟨psql, op, op.result, op.parts⟩) } := by
  obtain ⟨db, hdb, hidle, rfl⟩ := Client.leases_of_getDB hget
  have hlost : ¬ s.Lost psql := by
    intro hlost
    rw [(h.inUse_iff psql db hdb).mpr (.inr hlost)] at hidle
    cases hidle
  refine ⟨(List.length_modify ..).trans h.length, fun i db' hi => ?_, h.returned,
    fun u v hu => ?_⟩
  · have hi : (s.lease psql).dbs[i]? = some db' := hi
    rw [DBManager.lease_getElem?] at hi
    split at hi
    · rename_i heq
      subst heq
      rw [hdb, Option.map_some, Option.some.injEq] at hi
      subst hi
      exact ⟨fun _ => .inl ⟨t, _, Function.update_self _ _ _, rfl⟩, fun _ => rfl⟩
    · rename_i hne
      rw [h.inUse_iff i db' hi]
      refine or_congr_left ⟨?_, ?_⟩
      · rintro ⟨u, v, hu, hv⟩
        refine ⟨u, v, (Function.update_of_ne ?_ _ _).trans hu, hv⟩
        rintro rfl
        rw [ht] at hu
        cases hu
      · rintro ⟨u, v, hu, hv⟩
        rcases update_eq_some_iff.mp hu with ⟨-, rfl⟩ | ⟨-, hu⟩
        · exact absurd hv hne
        · exact ⟨u, v, hu, hv⟩
  · rcases update_eq_some_iff.mp hu with ⟨-, rfl⟩ | ⟨-, hu⟩
    · exact hlost
    · exact h.not_lost u v hu

/-- A part that is not the last of its operation. -/
theorem runPart_of_ne_nil {part : CallPart} {rest : List CallPart} (h : s.Accounted n)
    (hs : s.Separate) (ht : s.calls t = some call) (hrest : call.rest = part :: rest)
    (hnil : rest ≠ []) : (s.runPart t call part rest).Accounted n := by
  obtain ⟨db, hcall⟩ := hs.underway t call ht
  have hpart : ¬ part.Final := by
    refine hcall.not_final part ?_
    rw [hrest, List.dropLast_cons_of_ne_nil hnil]
    exact List.mem_cons_self
  have hheld : ∀ i, (s.runPart t call part rest).Held i ↔ s.Held i := by
    intro i
    constructor
    · rintro ⟨u, v, hu, rfl⟩
      by_cases hut : u = t
      · subst hut
        rw [ConcurrentClient.runPart, if_neg hnil] at hu
        have hu : Function.update s.calls u (some _) u = some v := hu
        rw [Function.update_self, Option.some.injEq] at hu
        exact ⟨u, call, ht, hu ▸ rfl⟩
      · exact ⟨u, v, (runPart_calls_of_ne hut).symm.trans hu, rfl⟩
    · rintro ⟨u, v, hu, rfl⟩
      by_cases hut : u = t
      · subst hut
        rw [ht, Option.some.injEq] at hu
        subst hu
        rw [ConcurrentClient.runPart, if_neg hnil]
        exact ⟨u, _, Function.update_self _ _ _, rfl⟩
      · exact ⟨u, v, (runPart_calls_of_ne hut).trans hu, rfl⟩
  have hcompleted : (s.runPart t call part rest).completed = s.completed := by
    rw [ConcurrentClient.runPart, if_neg hnil]
  have hdbs : ∀ j : ℕ, (s.runPart t call part rest).dbs[j]? = s.dbs[j]? := by
    intro j
    rw [runPart_client]
    exact run_dbs_of_not_final hpart j
  have hlost : ∀ i, (s.runPart t call part rest).Lost i ↔ s.Lost i := by
    intro i
    rw [Lost, Lost, hcompleted]
  refine ⟨?_, fun i db' hi => ?_, hcompleted ▸ h.returned, fun u v hu => ?_⟩
  · rw [List.ext_getElem? hdbs]
    exact h.length
  · rw [hheld, hlost]
    exact h.inUse_iff i db' ((hdbs i).symm.trans hi)
  · rw [hlost]
    obtain ⟨w, v', hw, heq⟩ := (hheld v.psql).mp ⟨u, v, hu, rfl⟩
    exact heq ▸ h.not_lost w v' hw

/-- The last part of an operation. -/
theorem runPart_nil {part : CallPart} (h : s.Accounted n) (hs : s.Separate)
    (ht : s.calls t = some call) (hrest : call.rest = [part]) :
    (s.runPart t call part []).Accounted n := by
  obtain ⟨db, hcall⟩ := hs.underway t call ht
  have hbefore := h.not_lost t call ht
  rw [ConcurrentClient.runPart, if_pos rfl]
  have hcompleted : ∀ i, i ≠ call.psql → Function.update s.completed call.psql
      (s.completed call.psql ++ [call.op]) i = s.completed i :=
    fun i hi => Function.update_of_ne hi _ _
  have hself : Function.update s.completed call.psql (s.completed call.psql ++ [call.op])
      call.psql = s.completed call.psql ++ [call.op] := Function.update_self _ _ _
  -- the operations afterwards are those of the other threads, on other connections
  have hothers : ∀ u v, Function.update s.calls t none u = some v →
      s.calls u = some v ∧ v.psql ≠ call.psql := by
    intro u v hu
    rw [Function.update_apply] at hu
    split at hu
    · cases hu
    · rename_i hut
      exact ⟨hu, fun heq => hut (hs.single u t v call hu ht heq)⟩
  refine ⟨?_, fun i db' hi => ?_, fun i op hop => ?_, fun u v hu => ?_⟩
  · show (part.run s.toClient call).1.toDBManager.dbs.length = n
    rw [CallPart.run_pool]
    split
    · exact (List.length_modify ..).trans h.length
    · exact h.length
  · have hi : (part.run s.toClient call).1.dbs[i]? = some db' := hi
    by_cases hip : i = call.psql
    · -- nobody is in an operation on it now, and it is in use if it was not returned
      subst hip
      rw [hcall.inUse_iff_keeps hrest hi]
      constructor
      · intro hkeeps
        refine .inr ⟨call.op, ?_, hkeeps⟩
        show call.op ∈ (Function.update s.completed call.psql _ call.psql).getLast?
        rw [hself, List.getLast?_concat]
        rfl
      · rintro (⟨u, v, hu, heq⟩ | ⟨op, hop, hkeeps⟩)
        · exact absurd heq (hothers u v hu).2
        · have hop : op ∈ (Function.update s.completed call.psql _ call.psql).getLast? := hop
          rw [hself, List.getLast?_concat, Option.mem_some_iff] at hop
          exact hop ▸ hkeeps
    · rw [CallPart.run_dbs, if_neg fun h => hip h.2.symm] at hi
      rw [h.inUse_iff i db' hi]
      refine or_congr ⟨?_, ?_⟩ ?_
      · rintro ⟨u, v, hu, rfl⟩
        refine ⟨u, v, (Function.update_of_ne ?_ _ _).trans hu, rfl⟩
        rintro rfl
        rw [ht, Option.some.injEq] at hu
        exact hip (hu ▸ rfl)
      · rintro ⟨u, v, hu, heq⟩
        exact ⟨u, v, (hothers u v hu).1, heq⟩
      · show s.Lost i ↔ ∃ op ∈ (Function.update s.completed call.psql _ i).getLast?, op.Keeps
        rw [hcompleted i hip]
        rfl
  · have hop : op ∈ (Function.update s.completed call.psql
        (s.completed call.psql ++ [call.op]) i).dropLast := hop
    by_cases hip : i = call.psql
    · subst hip
      rw [hself, List.dropLast_concat] at hop
      have hne := List.ne_nil_of_mem hop
      rw [← List.dropLast_append_getLast hne, List.mem_append, List.mem_singleton] at hop
      rcases hop with hop | rfl
      · exact h.returned _ op hop
      · exact fun hkeeps => hbefore ⟨_, List.getLast?_eq_some_getLast hne, hkeeps⟩
    · rw [hcompleted i hip] at hop
      exact h.returned i op hop
  · obtain ⟨hu, hne⟩ := hothers u v hu
    rintro ⟨op, hop, hkeeps⟩
    have hop : op ∈ (Function.update s.completed call.psql _ v.psql).getLast? := hop
    rw [hcompleted v.psql hne] at hop
    exact h.not_lost u v hu ⟨op, hop, hkeeps⟩

theorem step (h : s.Accounted n) (hs : s.Separate) (hstep : Step s l s') : s'.Accounted n := by
  cases hstep with
  | lease ht hget => exact h.lease ht hget
  | refuse ht hget =>
    rw [Client.eq_of_getDB_none hget]
    exact h
  | @part _ call part rest ht hrest =>
    cases rest with
    | nil => exact h.runPart_nil hs ht hrest
    | cons _ _ => exact h.runPart_of_ne_nil hs ht hrest (List.cons_ne_nil _ _)

omit [DecidableEq τ] in
theorem init_dbs (s : Client) (oks : List Bool) (hidle : ∀ db ∈ s.dbs, db.inUse = false) :
    (s.init oks).dbs.length = s.dbs.length + oks.length ∧
      ∀ db ∈ (s.init oks).dbs, db.inUse = false := by
  induction oks generalizing s with
  | nil => exact ⟨rfl, hidle⟩
  | cons ok oks ih =>
    have hnew : ∀ db ∈ s.dbs ++ [⟨s.conns, false⟩], db.inUse = false := by
      intro db hdb
      rcases List.mem_append.mp hdb with hdb | hdb
      · exact hidle db hdb
      · rw [List.mem_singleton.mp hdb]
    rw [Client.init, Client.connect_eq]
    refine (ih _ ?_).imp_left fun hlength => hlength.trans ?_
    · exact hnew
    · simp only [List.length_append, List.length_cons, List.length_nil]
      omega

omit [DecidableEq τ] in
theorem init (oks : List Bool) :
    Accounted oks.length
      (⟨Client.start.init oks, fun _ => none, fun _ => []⟩ : ConcurrentClient τ) := by
  obtain ⟨hlength, hidle⟩ := init_dbs Client.start oks (fun db hdb => by cases hdb)
  refine ⟨hlength.trans (Nat.zero_add _), fun i db hi => ?_, fun i op hop => ?_,
    fun t call ht => ?_⟩
  · rw [hidle db (List.mem_of_getElem? hi)]
    refine iff_of_false Bool.false_ne_true ?_
    rintro (⟨t, call, ht, -⟩ | ⟨op, hop, -⟩)
    · cases ht
    · cases hop
  · cases hop
  · cases ht

/-- When every connection is lost, nothing but a call of `getDB` can happen, and it changes
    nothing. -/
theorem eq_of_step (h : s.Accounted n) (hs : s.Separate) (hlost : ∀ i < n, s.Lost i)
    (hstep : Step s l s') : s' = s := by
  cases hstep with
  | lease ht hget =>
    obtain ⟨db, hdb, hidle, -⟩ := Client.leases_of_getDB hget
    have hlt := h.length ▸ (List.getElem?_eq_some_iff.mp hdb).1
    rw [(h.inUse_iff _ db hdb).mpr (.inr (hlost _ hlt))] at hidle
    cases hidle
  | refuse ht hget => rw [Client.eq_of_getDB_none hget]
  | part ht hrest =>
    obtain ⟨db, hcall⟩ := hs.underway _ _ ht
    have hlt := h.length ▸ (List.getElem?_eq_some_iff.mp hcall.getElem).1
    exact absurd (hlost _ hlt) (h.not_lost _ _ ht)

end Accounted

variable [DecidableEq τ] {oks : List Bool}

theorem reachable_accounted (h : (clientRuns τ oks).Reachable s) : s.Accounted oks.length := by
  refine h.invariant (I := Accounted oks.length) ?_ fun s l s' hreach hs hstep =>
    hs.step (reachable_separate hreach) hstep
  rintro s rfl
  exact .init oks

/-- In every run of any number of threads on a pool of any size, whatever the server answers: a
    connection is in use while a thread is in an operation on it, and for good once an operation
    on it kept its lease, which is then the last one there is on it. So at most as many operations
    keep their lease as the pool has connections, and when that many have, no step that any thread
    takes changes anything: `getDB` is all that is left and gives the null pointer. -/
theorem lost_connections (τ : Type*) [DecidableEq τ] (oks : List Bool) (s : ConcurrentClient τ)
    (h : (clientRuns τ oks).Reachable s) :
    (∀ i db, s.dbs[i]? = some db → (db.inUse = true ↔ s.Held i ∨ s.Lost i)) ∧
      (∀ i, ∀ op ∈ (s.completed i).dropLast, ¬ op.Keeps) ∧
      s.lostCount oks.length ≤ oks.length ∧
      (s.lostCount oks.length = oks.length →
        ∀ ls s', (clientRuns τ oks).Run s ls s' → s' = s ∧ s.getDB.2 = none) := by
  have hacc := reachable_accounted h
  refine ⟨hacc.inUse_iff, hacc.returned, hacc.lostCount_le, fun hall ls s' hrun => ?_⟩
  have hlost : ∀ i < oks.length, s.Lost i := fun i hi => hacc.lost_of_lostCount hall hi
  refine ⟨?_, ?_⟩
  · refine hrun.preserves (I := fun s' => s' = s) ?_ rfl
    rintro s₁ l s₂ rfl hstep
    exact hacc.eq_of_step (reachable_separate h) hlost hstep
  · cases hget : s.getDB with
    | mk c psql =>
      cases psql with
      | none => rfl
      | some psql =>
        obtain ⟨db, hdb, hidle, -⟩ := Client.leases_of_getDB hget
        have hlt := hacc.length ▸ (List.getElem?_eq_some_iff.mp hdb).1
        rw [(hacc.inUse_iff _ db hdb).mpr (.inr (hlost _ hlt))] at hidle
        cases hidle

/-- A pool of one is lost to the first update that the server refuses. -/
theorem lost_connections_one : ∃ s : ConcurrentClient Bool,
    (∀ i db, s.dbs[i]? = some db → (db.inUse = true ↔ s.Held i ∨ s.Lost i)) ∧
      (∀ i, ∀ op ∈ (s.completed i).dropLast, ¬ op.Keeps) ∧
      s.lostCount 1 ≤ 1 ∧
      ∀ ls s', (clientRuns Bool [true]).Run s ls s' → s' = s ∧ s.getDB.2 = none := by
  have hstart : (clientRuns Bool [true]).Reachable
      ⟨Client.start.init [true], fun _ => none, fun _ => []⟩ := .start rfl
  have hlease := reachable_step (l := .getDB true Client.refused) hstart (.lease rfl rfl)
  have hbegin := reachable_step (l := .part true) hlease (.part rfl rfl)
  have hexec := reachable_step (l := .part true) hbegin (.part rfl rfl)
  have hfree := reachable_step (l := .part true) hexec (.part rfl rfl)
  obtain ⟨huse, hlast, hle, hdead⟩ := lost_connections Bool [true] _ hfree
  exact ⟨_, huse, hlast, hle, hdead (by decide)⟩

end ConcurrentClient

end Codechiev
