import Codechiev.Db.Psql
import Mathlib.Data.List.Nodup

/-!
# Runs of the database operations

What a run of `PSql` operations does to the pool: whether a connection that was free is free
again after each call and outside a transaction (`balanced_iff`), and whether a connection is
finished once and not used after that, up to the final `close` (`lifecycle_iff`).

The exits of `query`, `queryById` and `selectById` for a failed statement keep the lease. Those of
the by-id operations finish the connection as well, and a failed `connect` finishes one that
`init` puts into the pool all the same; `close` then finishes it again.
-/

namespace Codechiev

namespace DbEvent

/-- Whether the connection is inside a transaction block after the event, given whether it was
    before. -/
def block (conn : ConnId) (inside : Bool) : DbEvent → Bool
  | exec c command _ =>
    if c = conn then
      if command = "BEGIN" then true else if command = "END" then false else inside
    else inside
  | _ => inside

/-- After these events, a `BEGIN` on the connection was not followed by an `END`. -/
def inTransaction (conn : ConnId) (log : List DbEvent) : Bool := log.foldl (block conn) false

/-- The event finishes the connection, hands it out or executes something on it. -/
def Uses (conn : ConnId) : DbEvent → Prop
  | finish c | getDB c | exec c _ _ | execParams c _ _ _ => c = conn
  | _ => False

/-- Each connection is finished at most once, and not used after that. -/
def Proper (log : List DbEvent) : Prop :=
  log.Pairwise fun e e' => ∀ conn, e = finish conn → ¬ e'.Uses conn

theorem inTransaction_append (conn : ConnId) (log log' : List DbEvent) :
    inTransaction conn (log ++ log') = log'.foldl (block conn) (inTransaction conn log) :=
  List.foldl_append

end DbEvent

open DbEvent

/-! ## What one operation logs -/

section Log

variable {c conn : ConnId} {n : ℕ} {b : Bool} {op : Operation}

theorem foldl_beginLog (a : Option ExecStatus) :
    (beginLog conn n a).foldl (block c) b = if conn = c then true else b := by
  simp only [beginLog]
  split <;> simp [block]

theorem foldl_endLog (a : Option ExecStatus) :
    (endLog conn n a).foldl (block c) b = if conn = c then false else b := by
  simp [endLog, block]

/-- Other connections are left alone. -/
theorem foldl_log_of_ne (h : conn ≠ c) : (op.log conn n).foldl (block c) b = b := by
  by_cases hf : op.Fails <;> obtain ⟨call, result, answers⟩ := op <;> cases call <;>
    simp [Operation.log, Operation.entryLog, Operation.exitLog, foldl_beginLog, foldl_endLog,
      block, h, hf]

/-- An operation that gives its connection back has sent the `END`. -/
theorem foldl_log_self (h : ¬ op.Keeps) : (op.log c n).foldl (block c) false = false := by
  by_cases hf : op.Fails <;> obtain ⟨call, result, answers⟩ := op <;> cases call <;>
    simp_all [Operation.Keeps, Operation.log, Operation.entryLog, Operation.exitLog,
      foldl_beginLog, foldl_endLog, block]

theorem finish_mem_log : .finish c ∈ op.log conn n ↔ c = conn ∧ op.call.Closes ∧ op.Fails := by
  have hbegin : ∀ a, DbEvent.finish c ∉ beginLog conn n a := by
    intro a
    simp only [beginLog]
    split <;> simp
  by_cases hf : op.Fails <;> obtain ⟨call, result, answers⟩ := op <;> cases call <;>
    simp [Operation.log, Operation.entryLog, Operation.exitLog, endLog, hbegin, hf]

end Log

namespace Client

/-- Every connection that was free is free again, and no free one is inside a transaction. -/
def Balanced (s s' : Client) : Prop :=
  (∀ (i : ℕ) (db : PSql), s.dbs[i]? = some db → db.inUse = false →
    ∃ db' : PSql, s'.dbs[i]? = some db' ∧ db'.inUse = false) ∧
  ∀ db ∈ s'.dbs, db.inUse = false → inTransaction db.conn s'.log = false

/-- The operation leases a connection and leaves on an exit without `returnDB`. -/
def Loses (s : Client) (op : Operation) : Prop := s.HasFree ∧ op.call.Forgets ∧ op.Fails

/-- The operation leases a connection and leaves on an exit that closes it. -/
def Breaks (s : Client) (op : Operation) : Prop := s.HasFree ∧ op.call.Closes ∧ op.Fails

/-- No operation of the run breaks a connection. -/
def Spared (s : Client) : List Operation → Prop
  | [] => True
  | op :: ops => ¬ s.Breaks op ∧ (s.perform op).1.Spared ops

/-- The connections of the pool are different ones, the free ones are outside a transaction, and
    only connections of the pool were finished. -/
structure Sound (s : Client) : Prop where
  nodup : (s.dbs.map PSql.conn).Nodup
  idle : ∀ db ∈ s.dbs, db.inUse = false → inTransaction db.conn s.log = false
  finished : ∀ c, .finish c ∈ s.log → c ∈ s.dbs.map PSql.conn

/-! ## The invariant -/

variable {s : Client} {op : Operation}

theorem Sound.conn_ne {i j : ℕ} {db db' : PSql} (h : s.Sound) (hij : i ≠ j)
    (hi : s.dbs[i]? = some db) (hj : s.dbs[j]? = some db') : db.conn ≠ db'.conn := by
  intro heq
  obtain ⟨hil, -⟩ := List.getElem?_eq_some_iff.mp hi
  refine hij ((List.getElem?_inj (by rwa [List.length_map]) h.nodup).mp ?_)
  rw [List.getElem?_map, List.getElem?_map, hi, hj]
  exact congrArg some heq

theorem Sound.perform (h : s.Sound) (op : Operation) : (s.perform op).1.Sound := by
  by_cases hfree : s.HasFree
  · obtain ⟨psql, db, hdb, hidle, hleases⟩ := leases_of_hasFree hfree
    have hconns : (s.after op psql db).1.dbs.map PSql.conn = s.dbs.map PSql.conn := by
      simp only [after]
      split
      · exact DBManager.lease_conns _ _
      · rfl
    rw [perform_of_leases hleases]
    refine ⟨hconns ▸ h.nodup, ?_, ?_⟩
    · intro db' hdb' hidle'
      -- a free connection afterwards is another one, or the operation gave its own back
      obtain ⟨hold, hne⟩ :
          db' ∈ s.dbs ∧ (db.conn ≠ db'.conn ∨ ¬ op.Keeps ∧ db.conn = db'.conn) := by
        obtain ⟨j, hj⟩ := List.getElem?_of_mem hdb'
        simp only [after] at hj
        split at hj
        · obtain ⟨hpj, hj⟩ := DBManager.free_of_lease hj hidle'
          exact ⟨List.mem_of_getElem? hj, .inl (h.conn_ne hpj hdb hj)⟩
        · rename_i hkeeps
          refine ⟨List.mem_of_getElem? hj, ?_⟩
          by_cases heq : db.conn = db'.conn
          · exact .inr ⟨hkeeps, heq⟩
          · exact .inl heq
      have hbefore := h.idle db' hold hidle'
      show inTransaction db'.conn (s.log ++ op.log db.conn s.results) = false
      rw [inTransaction_append, hbefore]
      rcases hne with hne | ⟨hkeeps, heq⟩
      · exact foldl_log_of_ne hne
      · rw [heq]
        exact foldl_log_self hkeeps
    · intro c hc
      rw [hconns]
      rcases List.mem_append.mp hc with hc | hc
      · exact h.finished c hc
      · rw [(finish_mem_log.mp hc).1]
        exact List.mem_map_of_mem (List.mem_of_getElem? hdb)
  · rw [perform_of_not_hasFree hfree]
    exact h

theorem Sound.performAll (h : s.Sound) (ops : List Operation) : (s.performAll ops).Sound := by
  induction ops generalizing s with
  | nil => exact h
  | cons op ops ih => exact ih (h.perform op)

/-- What `init` has done after some of its iterations. -/
structure Starting (s : Client) : Prop where
  nodup : (s.dbs.map PSql.conn).Nodup
  conn_lt : ∀ c ∈ s.dbs.map PSql.conn, c < s.conns
  idle : ∀ c, inTransaction c s.log = false
  finished : ∀ c, .finish c ∈ s.log → c ∈ s.dbs.map PSql.conn

theorem starting_start : start.Starting :=
  ⟨List.nodup_nil, by simp [start], fun _ => rfl, by simp [start]⟩

/-- One iteration of `init`. -/
theorem connect_eq (s : Client) (ok : Bool) :
    s.connect ok =
      (⟨s.toDBManager, s.log ++ .connectdb s.conns :: if ok then [] else [.finish s.conns],
        s.conns + 1, s.results⟩, ⟨s.conns, false⟩, ok) := by
  cases ok <;> simp [connect, PQconnectdb, PQfinish, record]

theorem Starting.init (h : s.Starting) (oks : List Bool) : (s.init oks).Starting := by
  induction oks generalizing s with
  | nil => exact h
  | cons ok oks ih =>
    rw [Client.init, connect_eq]
    apply ih
    refine ⟨?_, ?_, ?_, ?_⟩
    · simp only [List.map_append, List.map_cons, List.map_nil]
      rw [List.nodup_append]
      refine ⟨h.nodup, by simp, ?_⟩
      rintro c hc c' hc' rfl
      rw [List.mem_singleton.mp hc'] at hc
      exact Nat.lt_irrefl _ (h.conn_lt _ hc)
    · simp only [List.map_append, List.map_cons, List.map_nil, List.mem_append, List.mem_singleton]
      rintro c (hc | rfl)
      · exact Nat.lt_succ_of_lt (h.conn_lt c hc)
      · exact Nat.lt_succ_self _
    · intro c
      show inTransaction c (s.log ++ _) = false
      rw [inTransaction_append, h.idle c]
      cases ok <;> rfl
    · simp only [List.map_append, List.map_cons, List.map_nil, List.mem_append]
      rintro c (hc | hc)
      · exact .inl (h.finished c hc)
      · right
        cases ok <;> simp_all

theorem Starting.sound (h : s.Starting) : s.Sound :=
  ⟨h.nodup, fun db _ _ => h.idle db.conn, h.finished⟩

theorem sound_run (oks : List Bool) (ops : List Operation) :
    ((start.init oks).performAll ops).Sound :=
  (starting_start.init oks).sound.performAll ops

/-! ## Leases -/

/-- After any run of operations on a pool of any size, the next one returns every connection that
    was free, and leaves no free one inside a transaction, if and only if it does not leave on an
    exit that keeps the lease. -/
theorem balanced_iff (oks : List Bool) (ops : List Operation) (op : Operation) :
    Balanced ((start.init oks).performAll ops) (((start.init oks).performAll ops).perform op).1 ↔
      ¬ ((start.init oks).performAll ops).Loses op := by
  have hsound := (sound_run oks ops).perform op
  revert hsound
  generalize (start.init oks).performAll ops = s
  intro hsound
  by_cases hfree : s.HasFree
  · obtain ⟨psql, db, hdb, hidle, hleases⟩ := leases_of_hasFree hfree
    rw [perform_of_leases hleases] at hsound ⊢
    constructor
    · rintro ⟨hback, -⟩ ⟨-, hkeeps⟩
      obtain ⟨db', hdb', hidle'⟩ := hback psql db hdb hidle
      simp only [after] at hdb'
      rw [if_pos (show op.Keeps from hkeeps)] at hdb'
      exact (DBManager.free_of_lease hdb' hidle').1 rfl
    · intro hloses
      have hkeeps : ¬ op.Keeps := fun hkeeps => hloses ⟨hfree, hkeeps⟩
      refine ⟨fun i db' hi hidle' => ⟨db', ?_, hidle'⟩, hsound.idle⟩
      simpa only [after, if_neg hkeeps] using hi
  · rw [perform_of_not_hasFree hfree] at hsound ⊢
    exact ⟨fun _ hloses => hfree hloses.1,
      fun _ => ⟨fun i db hi hidle => ⟨db, hi, hidle⟩, hsound.idle⟩⟩

/-- An update that the server refuses. -/
def refused : Operation where
  call := .query "update users set id=id  where id=$1::bigint" (idParam 1)
  result := .new
  answers := ⟨some .commandOk, some .fatalError, some .commandOk⟩

/-- With a pool of one, it leaves no free connection. -/
theorem query_loses_connection :
    ¬ ∀ (oks : List Bool) (ops : List Operation) (op : Operation),
      Balanced ((start.init oks).performAll ops)
        (((start.init oks).performAll ops).perform op).1 := by
  intro h
  obtain ⟨db', hdb', hidle⟩ := (h [true] [] refused).1 0 ⟨0, false⟩ rfl rfl
  have hleased : (((start.init [true]).performAll []).perform refused).1.dbs[0]? =
      some ⟨0, true⟩ := rfl
  rw [hleased, Option.some.injEq] at hdb'
  rw [← hdb'] at hidle
  cases hidle

/-! ## The life of a connection -/

/-- No connection was finished. -/
def Unfinished (s : Client) : Prop := ∀ c, .finish c ∉ s.log

theorem unfinished_init (s : Client) (oks : List Bool) :
    (s.init oks).Unfinished ↔ s.Unfinished ∧ ∀ ok ∈ oks, ok = true := by
  induction oks generalizing s with
  | nil => simp [Client.init]
  | cons ok oks ih =>
    rw [Client.init, connect_eq]
    simp only [ih, List.forall_mem_cons, ← and_assoc]
    apply and_congr_left'
    cases ok
    · simp only [Bool.false_eq_true, and_false, iff_false]
      intro h
      exact h s.conns (by simp)
    · simp [Unfinished]

theorem unfinished_perform (s : Client) (op : Operation) :
    (s.perform op).1.Unfinished ↔ s.Unfinished ∧ ¬ s.Breaks op := by
  by_cases hfree : s.HasFree
  · obtain ⟨psql, db, -, -, hleases⟩ := leases_of_hasFree hfree
    rw [perform_of_leases hleases]
    simp only [Unfinished, after, List.mem_append, finish_mem_log, not_or, forall_and, Breaks,
      hfree, true_and]
    apply and_congr_right'
    exact ⟨fun h hbreaks => h db.conn ⟨rfl, hbreaks⟩, fun h c hc => h hc.2⟩
  · rw [perform_of_not_hasFree hfree]
    exact (and_iff_left fun hbreaks => hfree hbreaks.1).symm

theorem unfinished_performAll (s : Client) (ops : List Operation) :
    (s.performAll ops).Unfinished ↔ s.Unfinished ∧ s.Spared ops := by
  induction ops generalizing s with
  | nil => simp [performAll, Spared]
  | cons op ops ih => rw [performAll, ih, unfinished_perform, Spared, and_assoc]

theorem close_log (s : Client) :
    s.close.log = s.log ++ s.dbs.map fun db => .finish db.conn := by
  have hfold : ∀ (dbs : List PSql) (t : Client),
      (dbs.foldl (fun s db => s.closeDB db.conn) t).log =
        t.log ++ dbs.map fun db => .finish db.conn := by
    intro dbs
    induction dbs with
    | nil => simp
    | cons db dbs ih =>
      intro t
      rw [List.foldl_cons, ih]
      simp [closeDB, PQfinish, record]
  exact hfold s.dbs s

/-- The final `close` finishes every connection of the pool, so none may be finished before. -/
theorem Sound.proper_close (h : s.Sound) : Proper s.close.log ↔ s.Unfinished := by
  rw [close_log, Proper, List.pairwise_append]
  constructor
  · rintro ⟨-, -, hcross⟩ c hc
    obtain ⟨db, hdb, rfl⟩ := List.mem_map.mp (h.finished c hc)
    exact hcross _ hc _ (List.mem_map_of_mem hdb) db.conn rfl rfl
  · intro hun
    refine ⟨?_, ?_, ?_⟩
    · apply List.pairwise_of_forall_mem_list
      rintro e he e' - c rfl
      exact absurd he (hun c)
    · rw [List.pairwise_map]
      refine (List.pairwise_map.mp h.nodup).imp ?_
      rintro db db' hne c heq huses
      cases heq
      exact hne huses.symm
    · rintro e he e' - c rfl
      exact absurd he (hun c)

/-- In a run of `init`, any operations and a final `close`, each connection is finished at most
    once, and nothing is executed on it and it is not handed out after that, if and only if every
    `connect` succeeded and no by-id operation that leased a connection failed. -/
theorem lifecycle_iff (oks : List Bool) (ops : List Operation) :
    Proper ((start.init oks).performAll ops).close.log ↔
      (∀ ok ∈ oks, ok = true) ∧ (start.init oks).Spared ops := by
  have hstart : start.Unfinished := by simp [Unfinished, start]
  rw [(sound_run oks ops).proper_close, unfinished_performAll, unfinished_init,
    and_iff_right hstart]

/-- A connection attempt fails: `connect` finishes the connection, and so does `close`. -/
theorem close_finishes_twice :
    ¬ ∀ (oks : List Bool) (ops : List Operation),
      Proper ((start.init oks).performAll ops).close.log := by
  intro h
  have hlog : Proper [.connectdb 0, .finish 0, .finish 0] := h [false] []
  have htwice := (List.pairwise_cons.mp (List.pairwise_cons.mp hlog).2).1
  exact htwice (.finish 0) List.mem_cons_self 0 rfl rfl

end Client

end Codechiev
