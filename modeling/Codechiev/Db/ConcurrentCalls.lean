import Codechiev.Db.PoolRuns
import Codechiev.Db.PoolExclusion

/-!
# Operations of several threads

Any number of threads run the operations of `PSql` on one pool. `getDB` and `returnDB` hold the
mutex of the pool; the calls into libpq in between hold none, and each is a step. Run without a step
of another thread in between, the parts of an operation are the operation (`runAll_parts`).

What a server sees on a connection are the commands of whole operations, one after the other,
whichever way the threads take turns, and no connection is used by anybody after it was finished
(`whole_operations`).
-/

namespace Codechiev

/-- The parts of an operation after its `getDB`, up to the first `throw` or the return. -/
inductive CallPart where
  | transactionBegin
  | execParams
  | freeAll
  | transactionEnd
  | close
  | returnDB
  deriving DecidableEq

/-- What a server sees of a call into libpq. -/
inductive Command where
  | exec (command : String)
  | statement (sql : String) (params : Params)
  deriving DecidableEq

/-- An operation that has leased the connection at `psql`, and what is left of it. -/
structure InCall where
  psql : ℕ
  op : Operation
  result : Result
  rest : List CallPart

namespace Operation

/-- The parts of an operation, on the way out that the server's answers make it take. -/
def parts (op : Operation) : List CallPart :=
  match op.call with
  | .query _ _ =>
    .transactionBegin :: .execParams ::
      if op.Fails then [.freeAll] else [.transactionEnd, .returnDB]
  | .select _ _ =>
    .transactionBegin :: .execParams ::
      if op.Fails then [.freeAll, .transactionEnd, .returnDB] else [.transactionEnd, .returnDB]
  | .queryById _ _ =>
    .transactionBegin :: .execParams ::
      if op.Fails then [.freeAll, .close] else [.transactionEnd, .returnDB]
  | .selectById _ _ =>
    .execParams :: if op.Fails then [.freeAll, .close] else [.returnDB]

/-- What the server sees of a part. -/
def partCommands (op : Operation) : CallPart → List Command
  | .transactionBegin => [.exec "BEGIN"]
  | .execParams => [.statement op.call.sql op.call.params]
  | .transactionEnd => [.exec "END"]
  | .freeAll | .close | .returnDB => []

/-- What the server sees of the whole operation. -/
def commands (op : Operation) : List Command := op.parts.flatMap op.partCommands

end Operation

namespace CallPart

/-- One part, with the arguments of the operation. -/
def run (s : Client) (call : InCall) : CallPart → Client × Result
  | transactionBegin =>
    (s.transactionBegin (s.conn call.psql) call.op.answers.onBegin, call.result)
  | execParams =>
    let (s, res) := s.PQexecParams (s.conn call.psql) call.op.call.sql call.op.call.params
      call.op.answers.onStatement
    (s, { call.result with res := res })
  | freeAll => (s.freeAll call.result, call.result)
  | transactionEnd => (s.transactionEnd (s.conn call.psql) call.op.answers.onEnd, call.result)
  | close => (s.closeDB (s.conn call.psql), call.result)
  | returnDB => (s.returnDB call.psql, call.result)

/-- The part gives the connection back, or finishes it. -/
def Final : CallPart → Prop
  | close | returnDB => True
  | _ => False

end CallPart

/-- The parts that are left, one after the other. -/
def InCall.runAll (s : Client) (call : InCall) : List CallPart → Client × Result
  | [] => (s, call.result)
  | part :: rest =>
    let (s, result) := part.run s call
    runAll s { call with result := result } rest

/-- The client, the operation that each thread is in, and a record of the operations that are over,
    by the place in the pool of the connection they leased. -/
structure ConcurrentClient (τ : Type*) extends Client where
  calls : τ → Option InCall
  completed : ℕ → List Operation

/-- A step of the thread that is named: it starts an operation, up to the return of `getDB`, or runs
    the next part of the one it is in. -/
inductive ClientStep (τ : Type*) where
  | getDB (t : τ) (op : Operation)
  | part (t : τ)

namespace ConcurrentClient

variable {τ : Type*} [DecidableEq τ]

/-- Thread `t` runs a part, and the operation is over if it was the last. -/
def runPart (s : ConcurrentClient τ) (t : τ) (call : InCall) (part : CallPart)
    (rest : List CallPart) : ConcurrentClient τ :=
  let out := part.run s.toClient call
  if rest = [] then
    { toClient := out.1
      calls := Function.update s.calls t none
      completed := Function.update s.completed call.psql (s.completed call.psql ++ [call.op]) }
  else
    { s with
      toClient := out.1
      calls := Function.update s.calls t (some { call with result := out.2, rest := rest }) }

/-- The steps. An operation that gets the null pointer is over. -/
inductive Step : ConcurrentClient τ → ClientStep τ → ConcurrentClient τ → Prop where
  | lease {s : ConcurrentClient τ} {t : τ} {op : Operation} {c : Client} {psql : ℕ}
      (ht : s.calls t = none) (hget : s.getDB = (c, some psql)) :
      Step s (.getDB t op)
        { s with
          toClient := c
          calls := Function.update s.calls t (some ⟨psql, op, op.result, op.parts⟩) }
  | refuse {s : ConcurrentClient τ} {t : τ} {op : Operation} {c : Client}
      (ht : s.calls t = none) (hget : s.getDB = (c, none)) :
      Step s (.getDB t op) { s with toClient := c }
  | part {s : ConcurrentClient τ} {t : τ} {call : InCall} {part : CallPart}
      {rest : List CallPart} (ht : s.calls t = some call) (hrest : call.rest = part :: rest) :
      Step s (.part t) (s.runPart t call part rest)

/-- The runs after an `init` whose connection attempts end as given, with no final `close`. -/
def clientRuns (τ : Type*) [DecidableEq τ] (oks : List Bool) :
    LabelledSystem (ConcurrentClient τ) (ClientStep τ) where
  init s := s = ⟨Client.start.init oks, fun _ => none, fun _ => []⟩
  step := Step

end ConcurrentClient

/-! ## One operation -/

theorem freeAll_conn (s : Client) (result : Result) (psql : ℕ) :
    (s.freeAll result).conn psql = s.conn psql := rfl

theorem CallPart.run_rest (s : Client) (call : InCall) (rest : List CallPart) (part : CallPart) :
    part.run s { call with rest := rest } = part.run s call := by
  cases part <;> rfl

theorem runAll_cons (s : Client) (call : InCall) (part : CallPart) (parts : List CallPart) :
    InCall.runAll s call (part :: parts) =
      InCall.runAll (part.run s call).1 { call with result := (part.run s call).2 } parts := rfl

/-- What is left of the operation is not looked at. -/
theorem runAll_rest (s : Client) (call : InCall) (rest parts : List CallPart) :
    InCall.runAll s { call with rest := rest } parts = InCall.runAll s call parts := by
  induction parts generalizing s call with
  | nil => rfl
  | cons part parts ih =>
    rw [runAll_cons, runAll_cons, CallPart.run_rest]
    exact ih _ { call with result := (part.run s call).2 }

/-- The parts are the operation. -/
theorem runAll_parts {s c : Client} {psql : ℕ} {op : Operation} (h : s.getDB = (c, some psql)) :
    InCall.runAll c ⟨psql, op, op.result, op.parts⟩ op.parts = s.perform op := by
  obtain ⟨call, result, answers⟩ := op
  cases call <;>
    simp only [Client.perform, Client.query, Client.select, Client.queryById, Client.selectById, h,
      Operation.parts, Operation.Fails, PSqlCall.expected, Client.PQexecParams_eq,
      Client.PQresultStatus_map] <;>
    split <;> simp [InCall.runAll, CallPart.run, Client.PQexecParams_eq, freeAll_conn, *]

/-- The connection is given back or finished at the end of an operation. -/
theorem not_final_of_parts (op : Operation) : ∀ part ∈ op.parts.dropLast, ¬ part.Final := by
  obtain ⟨call, result, answers⟩ := op
  cases call <;> simp only [Operation.parts] <;> split <;> simp [CallPart.Final]

theorem parts_ne_nil (op : Operation) : op.parts ≠ [] := by
  simp only [Operation.parts]
  split <;> exact List.cons_ne_nil _ _

/-! ## What a part does -/

/-- What the log says of connection `c` as the server sees it. -/
def commandsOn (c : ConnId) (log : List DbEvent) : List Command :=
  log.filterMap fun e => match e with
    | .exec conn command _ => if conn = c then some (.exec command) else none
    | .execParams conn sql params _ => if conn = c then some (.statement sql params) else none
    | _ => none

theorem commandsOn_append (c : ConnId) (log log' : List DbEvent) :
    commandsOn c (log ++ log') = commandsOn c log ++ commandsOn c log' := List.filterMap_append

/-- A server sees no command while the pool is set up. -/
theorem commandsOn_init {c : ConnId} (s : Client) (oks : List Bool) :
    commandsOn c (s.init oks).log = commandsOn c s.log := by
  induction oks generalizing s with
  | nil => rfl
  | cons ok oks ih =>
    rw [Client.init, Client.connect_eq, ih, commandsOn_append]
    cases ok <;> exact List.append_nil _

namespace CallPart

variable {s : Client} {call : InCall} {part : CallPart} {c : ConnId}

/-- What a part adds to the log. -/
def log (call : InCall) (conn : ConnId) (n : ℕ) : CallPart → List DbEvent
  | transactionBegin => beginLog conn n call.op.answers.onBegin
  | execParams =>
    [.execParams conn call.op.call.sql call.op.call.params
      (resultId n call.op.answers.onStatement)]
  | freeAll => [.clear (call.result.res.map PGresult.id)]
  | transactionEnd => endLog conn n call.op.answers.onEnd
  | close => [.finish conn]
  | returnDB => []

theorem run_log :
    (part.run s call).1.log = s.log ++ part.log call (s.conn call.psql) s.results := by
  cases part with
  | transactionBegin => simp only [run, Client.transactionBegin_eq, log]
  | execParams => simp only [run, Client.PQexecParams_eq, log]
  | freeAll => rfl
  | transactionEnd => simp only [run, Client.transactionEnd_eq, log]
  | close => rfl
  | returnDB => exact (List.append_nil _).symm

/-- Only `returnDB` changes the pool. -/
theorem run_pool : (part.run s call).1.toDBManager =
    if part = returnDB then s.toDBManager.returnDB (some call.psql) else s.toDBManager := by
  cases part with
  | transactionBegin => simp [run, Client.transactionBegin_eq]
  | execParams => simp [run, Client.PQexecParams_eq]
  | freeAll => rfl
  | transactionEnd => simp [run, Client.transactionEnd_eq]
  | close => rfl
  | returnDB => rfl

/-- A part is seen on its own connection only. -/
theorem commandsOn_log (part : CallPart) (call : InCall) (conn c : ConnId) (n : ℕ) :
    commandsOn c (part.log call conn n) = if conn = c then call.op.partCommands part else [] := by
  cases part with
  | transactionBegin =>
    simp only [log, beginLog, commandsOn, Operation.partCommands]
    split <;> split <;> simp [*]
  | execParams =>
    simp only [log, commandsOn, Operation.partCommands]
    split <;> simp [*]
  | freeAll => simp [log, commandsOn, Operation.partCommands]
  | transactionEnd =>
    simp only [log, endLog, commandsOn, Operation.partCommands]
    split <;> simp [*]
  | close => simp [log, commandsOn, Operation.partCommands]
  | returnDB => simp [log, commandsOn, Operation.partCommands]

/-- A part uses its own connection only, and finishes it only at the end of an operation. -/
theorem uses_log {conn : ConnId} {n : ℕ} {e : DbEvent} (he : e ∈ part.log call conn n) :
    (e.Uses c → c = conn) ∧ (e = .finish c → part.Final) := by
  cases part with
  | transactionBegin =>
    simp only [log, beginLog] at he
    split at he
    · rcases List.mem_cons.mp he with rfl | he
      · exact ⟨fun huses => huses.symm, by rintro ⟨⟩⟩
      · rw [List.mem_singleton.mp he]
        exact ⟨by rintro ⟨⟩, by rintro ⟨⟩⟩
    · rw [List.mem_singleton.mp he]
      exact ⟨fun huses => huses.symm, by rintro ⟨⟩⟩
  | execParams =>
    rw [List.mem_singleton.mp he]
    exact ⟨fun huses => huses.symm, by rintro ⟨⟩⟩
  | freeAll =>
    rw [List.mem_singleton.mp he]
    exact ⟨by rintro ⟨⟩, by rintro ⟨⟩⟩
  | transactionEnd =>
    rcases List.mem_cons.mp he with rfl | he
    · exact ⟨fun huses => huses.symm, by rintro ⟨⟩⟩
    · rw [List.mem_singleton.mp he]
      exact ⟨by rintro ⟨⟩, by rintro ⟨⟩⟩
  | close =>
    rw [List.mem_singleton.mp he]
    exact ⟨fun huses => huses.symm, fun _ => trivial⟩
  | returnDB => cases he

theorem proper_log (part : CallPart) (call : InCall) (conn : ConnId) (n : ℕ) :
    DbEvent.Proper (part.log call conn n) := by
  cases part with
  | transactionBegin =>
    simp only [log, beginLog, DbEvent.Proper]
    split <;> simp
  | transactionEnd => simp [log, endLog, DbEvent.Proper]
  | returnDB => exact .nil
  | _ => exact List.pairwise_singleton _ _

theorem run_dbs (j : ℕ) : (part.run s call).1.dbs[j]? =
    if part = returnDB ∧ call.psql = j then s.dbs[j]?.map (·.setUsed false) else s.dbs[j]? := by
  show (part.run s call).1.toDBManager.dbs[j]? = _
  rw [run_pool]
  by_cases hpart : part = returnDB
  · simp only [hpart, if_true, true_and]
    exact PoolState.returnDB_getElem? _ _ _
  · simp only [hpart, if_false, false_and]

end CallPart

/-- What `getDB` did when it handed out a connection. -/
theorem Client.leases_of_getDB {s c : Client} {psql : ℕ} (h : s.getDB = (c, some psql)) :
    ∃ db, s.dbs[psql]? = some db ∧ db.inUse = false ∧
      c = ⟨s.lease psql, s.log ++ [.getDB db.conn], s.conns, s.results⟩ := by
  by_cases hfree : s.HasFree
  · obtain ⟨i, db, hdb, hidle, hleases⟩ := leases_of_hasFree hfree
    rw [hleases.getDB_eq, Prod.mk.injEq, Option.some.injEq] at h
    obtain ⟨rfl, rfl⟩ := h
    exact ⟨db, hdb, hidle, rfl⟩
  · rw [getDB_of_not_hasFree hfree] at h
    cases h

theorem Client.eq_of_getDB_none {s c : Client} (h : s.getDB = (c, none)) : c = s := by
  by_cases hfree : s.HasFree
  · obtain ⟨i, db, -, -, hleases⟩ := leases_of_hasFree hfree
    rw [hleases.getDB_eq] at h
    cases h
  · rw [getDB_of_not_hasFree hfree] at h
    exact (congrArg Prod.fst h).symm

namespace ConcurrentClient

variable {τ : Type*} {s s' : ConcurrentClient τ} {t : τ} {call : InCall} {l : ClientStep τ}

theorem runPart_client [DecidableEq τ] (s : ConcurrentClient τ) (t : τ) (call : InCall)
    (part : CallPart) (rest : List CallPart) :
    (s.runPart t call part rest).toClient = (part.run s.toClient call).1 := by
  simp only [runPart]
  split <;> rfl

theorem runPart_calls_of_ne [DecidableEq τ] {part : CallPart} {rest : List CallPart} {u : τ}
    (hu : u ≠ t) : (s.runPart t call part rest).calls u = s.calls u := by
  simp only [runPart]
  split <;> exact Function.update_of_ne hu _ _

/-- The operations that the threads are in, once thread `t` is in a new one. -/
theorem update_eq_some_iff [DecidableEq τ] {calls : τ → Option InCall} {new v : InCall} {u : τ} :
    Function.update calls t (some new) u = some v ↔
      u = t ∧ v = new ∨ u ≠ t ∧ calls u = some v := by
  rw [Function.update_apply]
  split
  · rename_i hut
    simp [hut, eq_comm]
  · rename_i hut
    simp [hut]

/-- No thread is in an operation on the connection at `i`. -/
def Unheld (s : ConcurrentClient τ) (i : ℕ) : Prop :=
  ∀ t call, s.calls t = some call → call.psql ≠ i

/-- The operation has run some of its parts, and the connection that it leased is in use. -/
structure Underway (s : ConcurrentClient τ) (call : InCall) (db : PSql) : Prop where
  getElem : s.dbs[call.psql]? = some db
  inUse : db.inUse = true
  ne_nil : call.rest ≠ []
  not_final : ∀ part ∈ call.rest.dropLast, ¬ part.Final
  commands : ∃ ran, call.op.parts = ran ++ call.rest ∧
    commandsOn db.conn s.log = (s.completed call.psql).flatMap Operation.commands ++
      ran.flatMap call.op.partCommands

/-- The connections of the pool are different ones, each is used by one operation at a time, and
    the server has seen the operations that are over, whole, and the first parts of the one that is
    under way. -/
structure Separate (s : ConcurrentClient τ) : Prop where
  nodup : (s.dbs.map PSql.conn).Nodup
  single : ∀ t u call call', s.calls t = some call → s.calls u = some call' →
    call.psql = call'.psql → t = u
  underway : ∀ t call, s.calls t = some call → ∃ db, s.Underway call db
  whole : ∀ i db, s.dbs[i]? = some db → s.Unheld i →
    commandsOn db.conn s.log = (s.completed i).flatMap Operation.commands

namespace Separate

theorem conn_eq_iff (h : s.Separate) {i j : ℕ} {db db' : PSql} (hi : s.dbs[i]? = some db)
    (hj : s.dbs[j]? = some db') : db.conn = db'.conn ↔ i = j := by
  constructor
  · intro heq
    obtain ⟨hlt, -⟩ := List.getElem?_eq_some_iff.mp hi
    refine (List.getElem?_inj (by rwa [List.length_map]) h.nodup).mp ?_
    rw [List.getElem?_map, List.getElem?_map, hi, hj]
    exact congrArg some heq
  · rintro rfl
    rw [hi] at hj
    rw [Option.some.inj hj]

/-- A connection that is not in use is in no operation. -/
theorem unheld (h : s.Separate) {i : ℕ} {db : PSql} (hi : s.dbs[i]? = some db)
    (hidle : db.inUse = false) : s.Unheld i := by
  rintro t call ht rfl
  obtain ⟨db', hdb'⟩ := h.underway t call ht
  rw [hdb'.getElem, Option.some.injEq] at hi
  rw [← hi, hdb'.inUse] at hidle
  cases hidle

variable [DecidableEq τ]

/-- An operation starts on a connection that was free. -/
theorem lease {op : Operation} {c : Client} {psql : ℕ} (h : s.Separate) (ht : s.calls t = none)
    (hget : s.getDB = (c, some psql)) :
    Separate { s with
      toClient := c
      calls := Function.update s.calls t (some ⟨psql, op, op.result, op.parts⟩) } := by
  obtain ⟨db, hdb, hidle, rfl⟩ := Client.leases_of_getDB hget
  have hfree := h.unheld hdb hidle
  have hcommands : ∀ c, commandsOn c (s.log ++ [.getDB db.conn]) = commandsOn c s.log := by
    intro c
    rw [commandsOn_append]
    exact List.append_nil _
  have hcalls : ∀ u call, Function.update s.calls t (some ⟨psql, op, op.result, op.parts⟩) u =
      some call → u = t ∧ call = ⟨psql, op, op.result, op.parts⟩ ∨ s.calls u = some call :=
    fun u call hu => (update_eq_some_iff.mp hu).imp_right And.right
  refine ⟨?_, fun u v call call' hu hv heq => ?_, fun u call hu => ?_, fun i db' hi hun => ?_⟩
  · show ((s.lease psql).dbs.map PSql.conn).Nodup
    rw [DBManager.lease_conns]
    exact h.nodup
  · rcases hcalls u call hu with ⟨hut, hnew⟩ | hold
    · rcases hcalls v call' hv with ⟨hvt, -⟩ | hold'
      · exact hut.trans hvt.symm
      · rw [hnew] at heq
        exact absurd heq.symm (hfree v call' hold')
    · rcases hcalls v call' hv with ⟨-, hnew⟩ | hold'
      · rw [hnew] at heq
        exact absurd heq (hfree u call hold)
      · exact h.single u v call call' hold hold' heq
  · rcases hcalls u call hu with ⟨rfl, rfl⟩ | hu
    · refine ⟨db.setUsed true, ?_, rfl, parts_ne_nil op, not_final_of_parts op, [], rfl, ?_⟩
      · show (s.lease psql).dbs[psql]? = _
        rw [DBManager.lease_getElem?, if_pos rfl, hdb]
        rfl
      · show commandsOn db.conn _ = _
        rw [hcommands, List.flatMap_nil, List.append_nil]
        exact h.whole psql db hdb hfree
    · obtain ⟨db', hdb'⟩ := h.underway u call hu
      refine ⟨db', ?_, hdb'.inUse, hdb'.ne_nil, hdb'.not_final, ?_⟩
      · show (s.lease psql).dbs[call.psql]? = _
        rw [DBManager.lease_getElem?, if_neg (Ne.symm (hfree u call hu))]
        exact hdb'.getElem
      · simp only [hcommands]
        exact hdb'.commands
  · have hne : psql ≠ i := hun t _ (Function.update_self _ _ _)
    have hi : (s.lease psql).dbs[i]? = some db' := hi
    rw [DBManager.lease_getElem?, if_neg hne] at hi
    show commandsOn db'.conn _ = _
    rw [hcommands]
    refine h.whole i db' hi fun u call hu => ?_
    by_cases hut : u = t
    · rw [hut, ht] at hu
      cases hu
    · exact hun u call ((Function.update_of_ne hut _ _).trans hu)

/-- What a part of an operation on the connection `db` does to the others, and what the server has
    seen on `db` after it. -/
structure Apart (s : ConcurrentClient τ) (t : τ) (call : InCall) (db : PSql)
    (s' : ConcurrentClient τ) : Prop where
  conns : s'.dbs.map PSql.conn = s.dbs.map PSql.conn
  calls : ∀ u, u ≠ t → s'.calls u = s.calls u
  dbs : ∀ j, j ≠ call.psql → s'.dbs[j]? = s.dbs[j]?
  completed : ∀ j, j ≠ call.psql → s'.completed j = s.completed j
  commands : ∀ c, c ≠ db.conn → commandsOn c s'.log = commandsOn c s.log

/-- It is enough to look at the thread and the connection that the part is about. -/
theorem of_apart {db : PSql} (h : s.Separate) (ht : s.calls t = some call)
    (hdb : s.dbs[call.psql]? = some db) (hapart : Apart s t call db s')
    (hself : ∀ v, s'.calls t = some v → v.psql = call.psql ∧ ∃ db', s'.Underway v db')
    (hwhole : ∀ db', s'.dbs[call.psql]? = some db' → s'.calls t = none →
      commandsOn db'.conn s'.log = (s'.completed call.psql).flatMap Operation.commands) :
    s'.Separate := by
  -- an operation afterwards was there before, on the same connection
  have hold : ∀ u v, s'.calls u = some v → ∃ w, s.calls u = some w ∧ w.psql = v.psql := by
    intro u v hu
    by_cases hut : u = t
    · subst hut
      exact ⟨call, ht, (hself v hu).1.symm⟩
    · exact ⟨v, (hapart.calls u hut).symm.trans hu, rfl⟩
  refine ⟨hapart.conns ▸ h.nodup, fun u v cu cv hu hv heq => ?_, fun u v hu => ?_,
    fun i db' hi hun => ?_⟩
  · obtain ⟨wu, hwu, hpu⟩ := hold u cu hu
    obtain ⟨wv, hwv, hpv⟩ := hold v cv hv
    exact h.single u v wu wv hwu hwv (hpu.trans (heq.trans hpv.symm))
  · by_cases hut : u = t
    · subst hut
      exact (hself v hu).2
    · have hu : s.calls u = some v := (hapart.calls u hut).symm.trans hu
      have hne : v.psql ≠ call.psql := fun heq => hut (h.single u t v call hu ht heq)
      obtain ⟨db', hv⟩ := h.underway u v hu
      have hconn : db'.conn ≠ db.conn := fun heq => hne ((h.conn_eq_iff hv.getElem hdb).mp heq)
      refine ⟨db', (hapart.dbs _ hne).trans hv.getElem, hv.inUse, hv.ne_nil, hv.not_final, ?_⟩
      rw [hapart.completed _ hne, hapart.commands _ hconn]
      exact hv.commands
  · by_cases hip : i = call.psql
    · subst hip
      refine hwhole db' hi (Option.eq_none_iff_forall_ne_some.mpr fun v hv => ?_)
      exact hun t v hv (hself v hv).1
    · have hi : s.dbs[i]? = some db' := (hapart.dbs i hip).symm.trans hi
      have hconn : db'.conn ≠ db.conn := fun heq => hip ((h.conn_eq_iff hi hdb).mp heq)
      rw [hapart.commands _ hconn, hapart.completed i hip]
      refine h.whole i db' hi fun u v hu heq => ?_
      by_cases hut : u = t
      · subst hut
        rw [ht, Option.some.injEq] at hu
        exact hip (hu ▸ heq.symm)
      · exact hun u v ((hapart.calls u hut).trans hu) heq

theorem runPart {part : CallPart} {rest : List CallPart} (h : s.Separate)
    (ht : s.calls t = some call) (hrest : call.rest = part :: rest) :
    (s.runPart t call part rest).Separate := by
  obtain ⟨db, hcall⟩ := h.underway t call ht
  have hdb := hcall.getElem
  obtain ⟨ran, hparts, hseen⟩ := hcall.commands
  rw [hrest] at hparts
  have hconn : s.conn call.psql = db.conn := by
    rw [Client.conn, hdb]
    rfl
  have hcommands : ∀ c, commandsOn c (part.run s.toClient call).1.log =
      commandsOn c s.log ++ if db.conn = c then call.op.partCommands part else [] := by
    intro c
    rw [CallPart.run_log, commandsOn_append, CallPart.commandsOn_log, hconn]
  have hothers : ∀ c, c ≠ db.conn →
      commandsOn c (part.run s.toClient call).1.log = commandsOn c s.log := by
    intro c hc
    rw [hcommands, if_neg (Ne.symm hc), List.append_nil]
  have hown : commandsOn db.conn (part.run s.toClient call).1.log =
      (s.completed call.psql).flatMap Operation.commands ++
        (ran ++ [part]).flatMap call.op.partCommands := by
    rw [hcommands, if_pos rfl, hseen, List.append_assoc, List.flatMap_append]
    simp
  have hconns : (part.run s.toClient call).1.dbs.map PSql.conn = s.dbs.map PSql.conn := by
    apply List.ext_getElem?
    intro j
    rw [List.getElem?_map, List.getElem?_map, CallPart.run_dbs]
    split
    · rw [Option.map_map]
      rfl
    · rfl
  have hdbs : ∀ j, j ≠ call.psql → (part.run s.toClient call).1.dbs[j]? = s.dbs[j]? := by
    intro j hj
    rw [CallPart.run_dbs, if_neg fun h => hj h.2.symm]
  by_cases hnil : rest = []
  · -- the operation is over
    rw [ConcurrentClient.runPart, if_pos hnil]
    refine h.of_apart ht hdb ⟨hconns, fun u hu => Function.update_of_ne hu _ _, hdbs,
      fun j hj => Function.update_of_ne hj _ _, hothers⟩ ?_ ?_
    · intro v hv
      cases hv.symm.trans (Function.update_self _ _ _)
    · intro db' hdb' _
      have hsame : db'.conn = db.conn := by
        have hmap := congrArg (·[call.psql]?) hconns
        simp only [List.getElem?_map] at hmap
        rw [show (part.run s.toClient call).1.dbs[call.psql]? = some db' from hdb', hdb] at hmap
        exact Option.some.inj hmap
      show commandsOn db'.conn (part.run s.toClient call).1.log =
        (Function.update s.completed call.psql _ call.psql).flatMap Operation.commands
      have hop : call.op.commands = (ran ++ [part]).flatMap call.op.partCommands := by
        rw [Operation.commands, hparts, hnil]
      rw [hsame, hown, Function.update_self, ← hop, List.flatMap_append, List.flatMap_singleton]
  · -- it goes on
    rw [ConcurrentClient.runPart, if_neg hnil]
    have hcons : call.rest.dropLast = part :: rest.dropLast := by
      rw [hrest, List.dropLast_cons_of_ne_nil hnil]
    have hpart : part ≠ .returnDB := by
      rintro rfl
      exact hcall.not_final .returnDB (hcons ▸ List.mem_cons_self) trivial
    refine h.of_apart ht hdb ⟨hconns, fun u hu => Function.update_of_ne hu _ _, hdbs,
      fun j hj => rfl, hothers⟩ ?_ ?_
    · intro v hv
      have hv : Function.update s.calls t (some _) t = some v := hv
      rw [Function.update_self, Option.some.injEq] at hv
      subst hv
      refine ⟨rfl, db, ?_, hcall.inUse, hnil, fun p hp => ?_, ran ++ [part], ?_, hown⟩
      · show (part.run s.toClient call).1.dbs[call.psql]? = _
        rw [CallPart.run_dbs, if_neg fun h => hpart h.1]
        exact hdb
      · exact hcall.not_final p (hcons ▸ List.mem_cons_of_mem _ hp)
      · rw [hparts, List.append_assoc]
        rfl
    · intro db' _ hnone
      cases hnone.symm.trans (Function.update_self _ _ _)

theorem step (h : s.Separate) (hstep : Step s l s') : s'.Separate := by
  cases hstep with
  | lease ht hget => exact h.lease ht hget
  | refuse ht hget =>
    rw [Client.eq_of_getDB_none hget]
    exact h
  | part ht hrest => exact h.runPart ht hrest

omit [DecidableEq τ] in
theorem init (oks : List Bool) :
    Separate (⟨Client.start.init oks, fun _ => none, fun _ => []⟩ : ConcurrentClient τ) := by
  have hstarting := Client.starting_start.init oks
  refine ⟨hstarting.nodup, fun t u call call' ht => ?_, fun t call ht => ?_, fun i db _ _ => ?_⟩
  · cases ht
  · cases ht
  · show commandsOn db.conn (Client.start.init oks).log = []
    rw [commandsOn_init]
    rfl

end Separate

/-- No connection is used after it was finished: those that were are in use, and in no operation. -/
structure Closed (s : ConcurrentClient τ) : Prop where
  proper : DbEvent.Proper s.log
  out : ∀ i db, s.dbs[i]? = some db → .finish db.conn ∈ s.log → db.inUse = true ∧ s.Unheld i

namespace Closed

/-- What is added to the log is about one connection that was not finished. -/
theorem append {log : List DbEvent} {c : ConnId} (h : s.Closed) (hc : .finish c ∉ s.log)
    (hlog : DbEvent.Proper log) (huses : ∀ e ∈ log, ∀ c', e.Uses c' → c' = c) :
    DbEvent.Proper (s.log ++ log) := by
  rw [DbEvent.Proper, List.pairwise_append]
  refine ⟨h.proper, hlog, ?_⟩
  rintro e he e' he' c' rfl hused
  exact hc (huses e' he' c' hused ▸ he)

variable [DecidableEq τ]

theorem lease {op : Operation} {c : Client} {psql : ℕ} (h : s.Closed)
    (hget : s.getDB = (c, some psql)) :
    Closed { s with
      toClient := c
      calls := Function.update s.calls t (some ⟨psql, op, op.result, op.parts⟩) } := by
  obtain ⟨db, hdb, hidle, rfl⟩ := Client.leases_of_getDB hget
  have hopen : .finish db.conn ∉ s.log := by
    intro hfinish
    have huse := (h.out psql db hdb hfinish).1
    rw [hidle] at huse
    cases huse
  refine ⟨h.append hopen (List.pairwise_singleton _ _) ?_, fun i db' hi hfinish => ?_⟩
  · intro e he c' hused
    rw [List.mem_singleton.mp he] at hused
    exact hused.symm
  · have hold : .finish db'.conn ∈ s.log := by simpa using hfinish
    have hi : (s.lease psql).dbs[i]? = some db' := hi
    rw [DBManager.lease_getElem?] at hi
    split at hi
    · -- the connection that is handed out was not finished
      rename_i heq
      subst heq
      rw [hdb] at hi
      obtain rfl : db.setUsed true = db' := Option.some.inj hi
      exact absurd hold hopen
    · rename_i hne
      obtain ⟨huse, hun⟩ := h.out i db' hi hold
      refine ⟨huse, fun u v hv heq => ?_⟩
      rcases update_eq_some_iff.mp hv with ⟨-, rfl⟩ | ⟨-, hv⟩
      · exact hne heq
      · exact hun u v hv heq

/-- A part finishes its own connection at most, and then the operation is over. -/
theorem runPart {part : CallPart} {rest : List CallPart} (h : s.Closed) (hs : s.Separate)
    (ht : s.calls t = some call) (hrest : call.rest = part :: rest) :
    (s.runPart t call part rest).Closed := by
  obtain ⟨db, hcall⟩ := hs.underway t call ht
  have hdb := hcall.getElem
  have hconn : s.conn call.psql = db.conn := by
    rw [Client.conn, hdb]
    rfl
  have hclient := s.runPart_client t call part rest
  have hlog : (s.runPart t call part rest).log = s.log ++ part.log call db.conn s.results := by
    rw [hclient, CallPart.run_log, hconn]
  have hopen : .finish db.conn ∉ s.log := fun hfinish => (h.out _ db hdb hfinish).2 t call ht rfl
  refine ⟨?_, fun i db' hi hfinish => ?_⟩
  · rw [hlog]
    exact h.append hopen (CallPart.proper_log _ _ _ _)
      fun e he c hused => (CallPart.uses_log he).1 hused
  · rw [hclient, CallPart.run_dbs] at hi
    rw [hlog, List.mem_append] at hfinish
    by_cases hip : i = call.psql
    · subst hip
      have hret : part ≠ .returnDB := by
        rintro rfl
        rw [if_pos ⟨rfl, rfl⟩, hdb] at hi
        obtain rfl : db.setUsed false = db' := Option.some.inj hi
        exact hfinish.elim hopen List.not_mem_nil
      rw [if_neg fun h => hret h.1, hdb, Option.some.injEq] at hi
      subst hi
      have hfinal := (CallPart.uses_log (hfinish.resolve_left hopen)).2 rfl
      -- it was the last part, and no other operation is on the connection
      have hnil : rest = [] := by
        by_contra hne
        apply hcall.not_final part _ hfinal
        rw [hrest, List.dropLast_cons_of_ne_nil hne]
        exact List.mem_cons_self
      refine ⟨hcall.inUse, fun u v hv heq => ?_⟩
      by_cases hut : u = t
      · subst hut
        rw [ConcurrentClient.runPart, if_pos hnil] at hv
        cases hv.symm.trans (Function.update_self _ _ _)
      · rw [runPart_calls_of_ne hut] at hv
        exact hut (hs.single u t v call hv ht heq)
    · rw [if_neg fun h => hip h.2.symm] at hi
      have hne : db'.conn ≠ db.conn := fun heq => hip ((hs.conn_eq_iff hi hdb).mp heq)
      have hold : .finish db'.conn ∈ s.log :=
        hfinish.resolve_right fun hnew => hne ((CallPart.uses_log hnew).1 rfl)
      obtain ⟨huse, hun⟩ := h.out i db' hi hold
      refine ⟨huse, fun u v hv heq => ?_⟩
      by_cases hut : u = t
      · subst hut
        simp only [ConcurrentClient.runPart] at hv
        split at hv
        · cases hv.symm.trans (Function.update_self _ _ _)
        · have hv : Function.update s.calls u (some _) u = some v := hv
          rw [Function.update_self, Option.some.injEq] at hv
          subst hv
          exact hip heq.symm
      · rw [runPart_calls_of_ne hut] at hv
        exact hun u v hv heq

theorem step (h : s.Closed) (hs : s.Separate) (hstep : Step s l s') : s'.Closed := by
  cases hstep with
  | lease ht hget => exact h.lease hget
  | refuse ht hget =>
    rw [Client.eq_of_getDB_none hget]
    exact h
  | part ht hrest => exact h.runPart hs ht hrest

omit [DecidableEq τ] in
theorem init {oks : List Bool} (hoks : ∀ ok ∈ oks, ok = true) :
    Closed (⟨Client.start.init oks, fun _ => none, fun _ => []⟩ : ConcurrentClient τ) := by
  have hstart : Client.start.Unfinished := by simp [Client.Unfinished, Client.start]
  have hun := (Client.unfinished_init Client.start oks).mpr ⟨hstart, hoks⟩
  refine ⟨List.pairwise_of_forall_mem_list ?_, fun i db _ hfinish => absurd hfinish (hun db.conn)⟩
  rintro e he e' - c rfl
  exact absurd he (hun c)

end Closed

/-! ## Whole runs -/

variable [DecidableEq τ] {oks : List Bool}

/-- The parts that are left, with no step of another thread in between. -/
theorem run_rest {rest : List CallPart} (ht : s.calls t = some call) (hrest : call.rest = rest)
    (hne : rest ≠ []) (oks : List Bool) :
    ∃ ls s', (clientRuns τ oks).Run s ls s' ∧
      s'.toClient = (InCall.runAll s.toClient call rest).1 ∧
      s'.calls = Function.update s.calls t none := by
  induction rest generalizing s call with
  | nil => exact absurd rfl hne
  | cons part rest ih =>
    have hstep : (clientRuns τ oks).step s (.part t) _ := Step.part ht hrest
    by_cases hnil : rest = []
    · refine ⟨_, _, .cons hstep (.nil _), ?_⟩
      rw [runPart, if_pos hnil, hnil]
      exact ⟨rfl, rfl⟩
    · have hcalls : (s.runPart t call part rest).calls t =
          some { call with result := (part.run s.toClient call).2, rest := rest } := by
        rw [runPart, if_neg hnil]
        exact Function.update_self _ _ _
      obtain ⟨ls, s', hrun, hclient, hs'⟩ := ih hcalls rfl hnil
      refine ⟨_, s', .cons hstep hrun, ?_, ?_⟩
      · rw [hclient, runPart_client, runAll_cons]
        exact congrArg Prod.fst
          (runAll_rest _ { call with result := (part.run s.toClient call).2 } rest rest)
      · rw [hs', runPart, if_neg hnil]
        exact Function.update_idem _ _ _

/-- An operation without a step of another thread in between is the operation. -/
theorem run_perform (op : Operation) (ht : s.calls t = none) :
    ∃ ls s', (clientRuns τ oks).Run s ls s' ∧ s'.toClient = (s.perform op).1 ∧
      s'.calls = s.calls := by
  cases hget : s.getDB with
  | mk c psql =>
    cases psql with
    | none =>
      have hfree : ¬ s.HasFree := fun hfree => by
        obtain ⟨i, db, -, -, hleases⟩ := Client.leases_of_hasFree hfree
        rw [hleases.getDB_eq] at hget
        cases hget
      have hstep : (clientRuns τ oks).step s (.getDB t op) _ := Step.refuse ht hget
      refine ⟨_, _, .cons hstep (.nil _), ?_, rfl⟩
      rw [Client.perform_of_not_hasFree hfree]
      exact Client.eq_of_getDB_none hget
    | some psql =>
      have hstep : (clientRuns τ oks).step s (.getDB t op) _ := Step.lease ht hget
      have hrest := run_rest (s := { s with
        toClient := c
        calls := Function.update s.calls t (some ⟨psql, op, op.result, op.parts⟩) })
        (Function.update_self _ _ _) rfl (parts_ne_nil op)
      obtain ⟨ls, s', hrun, hclient, hcalls⟩ := hrest oks
      refine ⟨_, s', .cons hstep hrun, ?_, ?_⟩
      · rw [hclient, ← runAll_parts hget]
      · rw [hcalls, Function.update_idem, ← ht, Function.update_eq_self]

theorem reachable_separate (h : (clientRuns τ oks).Reachable s) : s.Separate := by
  refine h.invariant (I := Separate) ?_ fun s l s' _ hs hstep => hs.step hstep
  rintro s rfl
  exact .init oks

theorem reachable_closed (hoks : ∀ ok ∈ oks, ok = true) (h : (clientRuns τ oks).Reachable s) :
    s.Closed := by
  refine h.invariant (I := Closed) ?_ fun s l s' hreach hs hstep =>
    hs.step (reachable_separate hreach) hstep
  rintro s rfl
  exact .init hoks

/-- In every run of any number of threads on a pool of any size, whatever the server answers: on
    each connection the server has seen the commands of the operations that are over on it, each of
    them whole, and the first commands of the one that is under way. If every `connect` succeeded,
    no connection is handed out, used or finished again after it was finished. -/
theorem whole_operations (τ : Type*) [DecidableEq τ] (oks : List Bool) (s : ConcurrentClient τ)
    (h : (clientRuns τ oks).Reachable s) :
    (∀ i db, s.dbs[i]? = some db → ∃ seen,
      commandsOn db.conn s.log = (s.completed i).flatMap Operation.commands ++ seen ∧
        (seen ≠ [] → db.inUse = true ∧
          ∃ t call, s.calls t = some call ∧ call.psql = i ∧ seen <+: call.op.commands)) ∧
      ((∀ ok ∈ oks, ok = true) → DbEvent.Proper s.log) := by
  have hs := reachable_separate h
  refine ⟨fun i db hi => ?_, fun hoks => (reachable_closed hoks h).proper⟩
  by_cases hun : s.Unheld i
  · exact ⟨[], by rw [hs.whole i db hi hun, List.append_nil], fun hne => absurd rfl hne⟩
  · simp only [Unheld, not_forall, not_not] at hun
    obtain ⟨t, call, ht, rfl⟩ := hun
    obtain ⟨db', hcall⟩ := hs.underway t call ht
    obtain rfl : db' = db := Option.some.inj (hcall.getElem.symm.trans hi)
    obtain ⟨ran, hparts, hseen⟩ := hcall.commands
    refine ⟨_, hseen, fun _ => ⟨hcall.inUse, t, call, ht, rfl, ?_⟩⟩
    rw [Operation.commands, hparts, List.flatMap_append]
    exact List.prefix_append _ _

theorem reachable_step (h : (clientRuns τ oks).Reachable s) (hstep : Step s l s') :
    (clientRuns τ oks).Reachable s' := .next l h hstep

/-- A thread is between the `BEGIN` and its statement, and another one is refused. -/
theorem whole_operations_begun : ∃ s : ConcurrentClient Bool,
    commandsOn 0 s.log = [.exec "BEGIN"] ∧
    (∀ i db, s.dbs[i]? = some db → ∃ seen,
      commandsOn db.conn s.log = (s.completed i).flatMap Operation.commands ++ seen ∧
        (seen ≠ [] → db.inUse = true ∧
          ∃ t call, s.calls t = some call ∧ call.psql = i ∧ seen <+: call.op.commands)) ∧
      ((∀ ok ∈ [true], ok = true) → DbEvent.Proper s.log) := by
  have hstart : (clientRuns Bool [true]).Reachable
      ⟨Client.start.init [true], fun _ => none, fun _ => []⟩ := .start rfl
  have hlease := reachable_step (l := .getDB true Client.refused) hstart (.lease rfl rfl)
  have hbegin := reachable_step (l := .part true) hlease (.part rfl rfl)
  have hrefuse := reachable_step (l := .getDB false Client.refused) hbegin (.refuse rfl rfl)
  exact ⟨_, by decide, whole_operations Bool [true] _ hrefuse⟩

end ConcurrentClient

end Codechiev
