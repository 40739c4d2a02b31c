import Codechiev.Db.SqlManager
import Codechiev.Net.Internet

/-!
# `PSql`

The four static operations of `Psql.cpp` over the connection pool, as a client of libpq. What the
server answers to each command is an argument; the calls into libpq are logged in order, since
what the properties are about is which of them were made on which connection or result.

Each operation has its own way out when the statement fails. `select` goes on as after a success.
`query` returns without `END` and without `returnDB`. The by-id operations also close the
connection, which stays in the pool, marked as in use.
-/

namespace Codechiev

/-- `ExecStatusType`. -/
inductive ExecStatus where
  | emptyQuery
  | commandOk
  | tuplesOk
  | copyOut
  | copyIn
  | badResponse
  | nonfatalError
  | fatalError
  deriving DecidableEq

/-- The number of a `PGresult`, in the order in which libpq returned them. -/
abbrev ResultId := ℕ

/-- `PGresult`. -/
structure PGresult where
  id : ResultId
  status : ExecStatus

/-- `PQresultStatus`, which takes the null pointer for a fatal error. -/
def PQresultStatus : Option PGresult → ExecStatus
  | some r => r.status
  | none => .fatalError

/-- The parameter arrays of a statement. `NULL` lengths and formats stand for text. -/
structure Params where
  nParams : ℕ
  values : List (List UInt8)
  lengths : Option (List ℤ)
  formats : Option (List ℤ)
  deriving DecidableEq

/-- What the client did, in order: the calls into libpq, the leases of `getDB`, and the field
    reads of `PSql::Result`. -/
inductive DbEvent where
  | connectdb (conn : ConnId)
  | finish (conn : ConnId)
  | getDB (conn : ConnId)
  | exec (conn : ConnId) (command : String) (res : Option ResultId)
  | execParams (conn : ConnId) (sql : String) (params : Params) (res : Option ResultId)
  | clear (res : Option ResultId)
  | getFieldValOfRow (res : Option ResultId) (field : String) (row : ℕ)
  deriving DecidableEq

/-- What the server answers to the `BEGIN`, the statement and the `END` of one operation: the
    status of the `PGresult` that libpq returns, or no `PGresult`. -/
structure Answers where
  onBegin : Option ExecStatus
  onStatement : Option ExecStatus
  onEnd : Option ExecStatus

/-- The status of what `PQexecParams` returns. -/
def Answers.status (a : Answers) : ExecStatus := a.onStatement.getD .fatalError

/-- `PSql::Result`. -/
structure Result where
  res : Option PGresult

def Result.new : Result := ⟨none⟩

/-- The process as a client of libpq: the pool, what was done so far, and how many connections
    and results there were. -/
structure Client extends DBManager where
  log : List DbEvent
  conns : ℕ
  results : ℕ

namespace Client

def record (s : Client) (e : DbEvent) : Client := { s with log := s.log ++ [e] }

/-! ## libpq -/

/-- libpq returns a new `PGresult`, or `NULL`. -/
def newResult (s : Client) : Option ExecStatus → Client × Option PGresult
  | some status => ({ s with results := s.results + 1 }, some ⟨s.results, status⟩)
  | none => (s, none)

def PQconnectdb (s : Client) : Client × ConnId :=
  ({ s with conns := s.conns + 1 }.record (.connectdb s.conns), s.conns)

def PQfinish (s : Client) (conn : ConnId) : Client := s.record (.finish conn)

def PQexec (s : Client) (conn : ConnId) (command : String) (answer : Option ExecStatus) :
    Client × Option PGresult :=
  let (s, res) := s.newResult answer
  (s.record (.exec conn command (res.map PGresult.id)), res)

def PQexecParams (s : Client) (conn : ConnId) (sql : String) (params : Params)
    (answer : Option ExecStatus) : Client × Option PGresult :=
  let (s, res) := s.newResult answer
  (s.record (.execParams conn sql params (res.map PGresult.id)), res)

def PQclear (s : Client) (res : Option PGresult) : Client :=
  s.record (.clear (res.map PGresult.id))

/-! ## `DBManager` -/

/-- The connection that a `psql_ptr` into the pool refers to. -/
def conn (s : Client) (psql : ℕ) : ConnId := (s.dbs[psql]?.map PSql.conn).getD 0

/-- `manager->getDB()`. -/
def getDB (s : Client) : Client × Option ℕ :=
  match s.toDBManager.getDB with
  | (m, some psql) => ({ s with toDBManager := m }.record (.getDB (s.conn psql)), some psql)
  | (m, none) => ({ s with toDBManager := m }, none)

/-- `manager->returnDB(psql)`. -/
def returnDB (s : Client) (psql : ℕ) : Client :=
  { s with toDBManager := s.toDBManager.returnDB (some psql) }

/-- `PSql::connect` on a new object, for a connection attempt that succeeds or not: the value it
    returns and the object. -/
def connect (s : Client) (ok : Bool) : Client × PSql × Bool :=
  let (s, conn) := s.PQconnectdb
  if ok then (s, ⟨conn, false⟩, true) else (s.PQfinish conn, ⟨conn, false⟩, false)

/-- The loop of `DBManager::init`, with how each connection attempt ends. Nothing looks at the
    value that `connect` returns. -/
def init (s : Client) : List Bool → Client
  | [] => s
  | ok :: rest =>
    let (s, db, _) := s.connect ok
    { s with dbs := s.dbs ++ [db] }.init rest

/-- `PSql::close`. -/
def closeDB (s : Client) (conn : ConnId) : Client := s.PQfinish conn

/-- `DBManager::close`. -/
def close (s : Client) : Client := s.dbs.foldl (fun s db => s.closeDB db.conn) s

/-! ## `PSql` -/

/-- `transactionBegin()`, which keeps the result of a `BEGIN` that failed. -/
def transactionBegin (s : Client) (conn : ConnId) (answer : Option ExecStatus) : Client :=
  let (s, res) := s.PQexec conn "BEGIN" answer
  if PQresultStatus res ≠ .commandOk then s else s.PQclear res

/-- `transactionEnd()`. -/
def transactionEnd (s : Client) (conn : ConnId) (answer : Option ExecStatus) : Client :=
  let (s, res) := s.PQexec conn "END" answer
  s.PQclear res

/-- `Result::freeAll()`. The pointer stays as it is. -/
def freeAll (s : Client) (result : Result) : Client := s.PQclear result.res

/-- `Result::getFieldValOfRow`, as far as the log goes. -/
def getFieldValOfRow (s : Client) (result : Result) (field : String) (row : ℕ) : Client :=
  s.record (.getFieldValOfRow (result.res.map PGresult.id) field row)

/-- `PSql::query`. The last argument of the source, `resultFormat`, is not used there. -/
def query (s : Client) (result : Result) (sql : String) (params : Params) (a : Answers) :
    Client × Result :=
  match s.getDB with
  | (s, none) => (s, result)
  | (s, some psql) =>
    let s := s.transactionBegin (s.conn psql) a.onBegin
    let (s, res) := s.PQexecParams (s.conn psql) sql params a.onStatement
    let result := { result with res := res }
    if PQresultStatus result.res ≠ .commandOk then (s.freeAll result, result)
    else
      let s := s.transactionEnd (s.conn psql) a.onEnd
      (s.returnDB psql, result)

/-- `PSql::select`. -/
def select (s : Client) (result : Result) (sql : String) (params : Params) (a : Answers) :
    Client × Result :=
  match s.getDB with
  | (s, none) => (s, result)
  | (s, some psql) =>
    let s := s.transactionBegin (s.conn psql) a.onBegin
    let (s, res) := s.PQexecParams (s.conn psql) sql params a.onStatement
    let result := { result with res := res }
    let s := if PQresultStatus result.res ≠ .tuplesOk then s.freeAll result else s
    let s := s.transactionEnd (s.conn psql) a.onEnd
    (s.returnDB psql, result)

/-- The one parameter of the by-id operations, in binary and network order. -/
def idParam (id : Int64) : Params :=
  let binaryIntId := memoryOf64 (HostToNetwork64 id.toUInt64)
  ⟨1, [binaryIntId], some [binaryIntId.length], some [1]⟩

/-- `PSql::queryById`. -/
def queryById (s : Client) (result : Result) (sql : String) (id : Int64) (a : Answers) :
    Client × Result :=
  match s.getDB with
  | (s, none) => (s, result)
  | (s, some psql) =>
    let s := s.transactionBegin (s.conn psql) a.onBegin
    let (s, res) := s.PQexecParams (s.conn psql) sql (idParam id) a.onStatement
    let result := { result with res := res }
    if PQresultStatus result.res ≠ .commandOk then
      ((s.freeAll result).closeDB (s.conn psql), result)
    else
      let s := s.transactionEnd (s.conn psql) a.onEnd
      (s.returnDB psql, result)

/-- `PSql::selectById`, which runs outside a transaction. -/
def selectById (s : Client) (rt : Result) (sql : String) (id : Int64) (a : Answers) :
    Client × Result :=
  match s.getDB with
  | (s, none) => (s, rt)
  | (s, some psql) =>
    let (s, res) := s.PQexecParams (s.conn psql) sql (idParam id) a.onStatement
    let rt := { rt with res := res }
    if PQresultStatus rt.res ≠ .tuplesOk then
      ((s.freeAll rt).closeDB (s.conn psql), rt)
    else (s.returnDB psql, rt)

/-- Before `DBManager::init`. -/
def start : Client := { dbs := [], log := [], conns := 0, results := 0 }

end Client

/-- A call of one of the four operations, with what it is passed. -/
inductive PSqlCall where
  | query (sql : String) (params : Params)
  | select (sql : String) (params : Params)
  | queryById (sql : String) (id : Int64)
  | selectById (sql : String) (id : Int64)

namespace PSqlCall

/-- The status that the operation takes for a success. -/
@[simp] def expected : PSqlCall → ExecStatus
  | query _ _ | queryById _ _ => .commandOk
  | select _ _ | selectById _ _ => .tuplesOk

/-- On a failure the operation returns without `returnDB`. -/
@[simp] def Forgets : PSqlCall → Prop
  | select _ _ => False
  | _ => True

/-- On a failure the operation closes the connection. -/
@[simp] def Closes : PSqlCall → Prop
  | queryById _ _ | selectById _ _ => True
  | _ => False

end PSqlCall

/-- A call on a `Result`, and what the server answers during it. -/
structure Operation where
  call : PSqlCall
  result : Result
  answers : Answers

/-- The statement does not have the status that the operation expects. -/
def Operation.Fails (op : Operation) : Prop := op.answers.status ≠ op.call.expected

instance (op : Operation) : Decidable op.Fails := inferInstanceAs (Decidable (_ ≠ _))

namespace Client

def perform (s : Client) (op : Operation) : Client × Result :=
  match op.call with
  | .query sql params => s.query op.result sql params op.answers
  | .select sql params => s.select op.result sql params op.answers
  | .queryById sql id => s.queryById op.result sql id op.answers
  | .selectById sql id => s.selectById op.result sql id op.answers

/-- The operations one after the other. -/
def performAll (s : Client) : List Operation → Client
  | [] => s
  | op :: ops => (s.perform op).1.performAll ops

end Client

/-! ## What is logged -/

/-- The number of the result that libpq returns, if it returns one. -/
def resultId (n : ℕ) (answer : Option ExecStatus) : Option ResultId := answer.map fun _ => n

/-- The number of the next result after that. -/
def nextResult (n : ℕ) : Option ExecStatus → ℕ
  | some _ => n + 1
  | none => n

/-- The log of `transactionBegin`. -/
def beginLog (conn : ConnId) (n : ℕ) (answer : Option ExecStatus) : List DbEvent :=
  .exec conn "BEGIN" (resultId n answer) ::
    if answer = some .commandOk then [.clear (resultId n answer)] else []

/-- The log of `transactionEnd`. -/
def endLog (conn : ConnId) (n : ℕ) (answer : Option ExecStatus) : List DbEvent :=
  [.exec conn "END" (resultId n answer), .clear (resultId n answer)]

namespace PSqlCall

@[simp] def sql : PSqlCall → String
  | query sql _ | select sql _ | queryById sql _ | selectById sql _ => sql

@[simp] def params : PSqlCall → Params
  | query _ params | select _ params => params
  | queryById _ id | selectById _ id => Client.idParam id

end PSqlCall

namespace Operation

/-- The number of the statement's result. Only `selectById` sends no `BEGIN` before it. -/
def statementNo (op : Operation) (n : ℕ) : ℕ :=
  match op.call with
  | .selectById _ _ => n
  | _ => nextResult n op.answers.onBegin

/-- The statement's result, if libpq returns one. -/
def statementId (op : Operation) (n : ℕ) : Option ResultId :=
  resultId (op.statementNo n) op.answers.onStatement

/-- The log up to the statement. -/
def entryLog (op : Operation) (conn : ConnId) (n : ℕ) : List DbEvent :=
  match op.call with
  | .selectById _ _ => []
  | _ => beginLog conn n op.answers.onBegin

/-- The log after the statement, on each way out. -/
def exitLog (op : Operation) (conn : ConnId) (n : ℕ) : List DbEvent :=
  let ended := endLog conn (nextResult (op.statementNo n) op.answers.onStatement) op.answers.onEnd
  let cleared := DbEvent.clear (op.statementId n)
  match op.call with
  | .query _ _ => if op.Fails then [cleared] else ended
  | .select _ _ => if op.Fails then cleared :: ended else ended
  | .queryById _ _ => if op.Fails then [cleared, .finish conn] else ended
  | .selectById _ _ => if op.Fails then [cleared, .finish conn] else []

/-- The log of the operation on a connection. -/
def log (op : Operation) (conn : ConnId) (n : ℕ) : List DbEvent :=
  .getDB conn :: op.entryLog conn n ++
    .execParams conn op.call.sql op.call.params (op.statementId n) :: op.exitLog conn n

/-- The number of the next result after the operation. -/
def nextNo (op : Operation) (n : ℕ) : ℕ :=
  let next := nextResult (op.statementNo n) op.answers.onStatement
  match op.call with
  | .selectById _ _ => next
  | .select _ _ => nextResult next op.answers.onEnd
  | _ => if op.Fails then next else nextResult next op.answers.onEnd

/-- What the operation leaves in the `Result`, cleared or not. -/
def statementResult (op : Operation) (n : ℕ) : Result :=
  ⟨op.answers.onStatement.map fun status => ⟨op.statementNo n, status⟩⟩

/-- The operation leaves the connection that it leased in use. -/
def Keeps (op : Operation) : Prop := op.call.Forgets ∧ op.Fails

end Operation

instance (call : PSqlCall) : Decidable call.Forgets := by
  cases call <;> simp only [PSqlCall.Forgets] <;> infer_instance

instance (call : PSqlCall) : Decidable call.Closes := by
  cases call <;> simp only [PSqlCall.Closes] <;> infer_instance

instance (op : Operation) : Decidable op.Keeps := inferInstanceAs (Decidable (_ ∧ _))

namespace Client

variable {s : Client} {psql : ℕ} {c : ConnId} {a : Option ExecStatus}

/-! ## What each function does -/

theorem transactionBegin_eq (s : Client) (c : ConnId) (a : Option ExecStatus) :
    s.transactionBegin c a =
      { s with log := s.log ++ beginLog c s.results a, results := nextResult s.results a } := by
  cases a with
  | none => rfl
  | some status => cases status <;> simp [transactionBegin, PQexec, newResult, record, PQclear,
      PQresultStatus, beginLog, resultId, nextResult]

theorem transactionEnd_eq (s : Client) (c : ConnId) (a : Option ExecStatus) :
    s.transactionEnd c a =
      { s with log := s.log ++ endLog c s.results a, results := nextResult s.results a } := by
  cases a <;> simp [transactionEnd, PQexec, newResult, record, PQclear, endLog, resultId,
    nextResult]

theorem PQexecParams_eq (s : Client) (c : ConnId) (sql : String) (params : Params)
    (a : Option ExecStatus) :
    s.PQexecParams c sql params a =
      ({ s with
          log := s.log ++ [.execParams c sql params (resultId s.results a)]
          results := nextResult s.results a },
        a.map fun status => ⟨s.results, status⟩) := by
  cases a <;> rfl

theorem getDB_of_not_hasFree (h : ¬ s.HasFree) : s.getDB = (s, none) := by
  rw [getDB, DBManager.getDB_of_not_hasFree h]

/-- `getDB` hands out `db`, at `psql`, which refers to it as long as it is leased. -/
structure Leases (s : Client) (psql : ℕ) (db : PSql) : Prop where
  getDB_eq : s.getDB = (⟨s.lease psql, s.log ++ [.getDB db.conn], s.conns, s.results⟩, some psql)
  conn_eq : ∀ log conns results,
    (Client.mk (s.lease psql) log conns results).conn psql = db.conn
  returnDB_eq : ∀ log conns results,
    (Client.mk (s.lease psql) log conns results).returnDB psql =
      ⟨s.toDBManager, log, conns, results⟩

theorem leases_of_hasFree (h : s.HasFree) :
    ∃ psql db, s.dbs[psql]? = some db ∧ db.inUse = false ∧ s.Leases psql db := by
  obtain ⟨psql, db, hget, hdb, hfree⟩ := DBManager.getDB_of_hasFree h
  have hconn : s.conn psql = db.conn := by rw [conn, hdb]; rfl
  refine ⟨psql, db, hdb, hfree, ?_, ?_, ?_⟩
  · rw [getDB, hget]
    simp only [record, hconn]
  · intro log conns results
    rw [conn, DBManager.lease, List.getElem?_modify, hdb]
    simp [PSql.setUsed]
  · intro log conns results
    simp only [returnDB, DBManager.returnDB_lease hdb hfree]

theorem PQresultStatus_map (n : ℕ) (a : Answers) :
    PQresultStatus (a.onStatement.map fun status => ⟨n, status⟩) = a.status := by
  rw [Answers.status]
  cases a.onStatement <;> rfl

theorem freeAll_map (s : Client) (n : ℕ) (a : Option ExecStatus) :
    s.freeAll ⟨a.map fun status => ⟨n, status⟩⟩ =
      { s with log := s.log ++ [.clear (resultId n a)] } := by
  cases a <;> rfl

/-- The state and the `Result` after an operation on the connection that it leased. -/
def after (s : Client) (op : Operation) (psql : ℕ) (db : PSql) : Client × Result :=
  (⟨if op.Keeps then s.lease psql else s.toDBManager, s.log ++ op.log db.conn s.results,
    s.conns, op.nextNo s.results⟩, op.statementResult s.results)

variable {db : PSql}

theorem query_eq (h : s.Leases psql db) (result : Result) (sql : String) (params : Params)
    (a : Answers) :
    s.query result sql params a = s.after ⟨.query sql params, result, a⟩ psql db := by
  simp only [query, h.getDB_eq, transactionBegin_eq, PQexecParams_eq, h.conn_eq,
    PQresultStatus_map, freeAll_map, transactionEnd_eq, h.returnDB_eq]
  by_cases hst : a.status = .commandOk <;>
    simp [hst, after, Operation.Keeps, Operation.Fails, Operation.log, Operation.entryLog,
      Operation.exitLog, Operation.nextNo, Operation.statementId, Operation.statementNo,
      Operation.statementResult]

theorem select_eq (h : s.Leases psql db) (result : Result) (sql : String) (params : Params)
    (a : Answers) :
    s.select result sql params a = s.after ⟨.select sql params, result, a⟩ psql db := by
  simp only [select, h.getDB_eq, transactionBegin_eq, PQexecParams_eq, h.conn_eq,
    PQresultStatus_map, freeAll_map, transactionEnd_eq]
  by_cases hst : a.status = .tuplesOk <;>
    simp [hst, after, Operation.Keeps, Operation.Fails, Operation.log, Operation.entryLog,
      Operation.exitLog, Operation.nextNo, Operation.statementId, Operation.statementNo,
      Operation.statementResult, h.conn_eq, h.returnDB_eq]

theorem queryById_eq (h : s.Leases psql db) (result : Result) (sql : String) (id : Int64)
    (a : Answers) :
    s.queryById result sql id a = s.after ⟨.queryById sql id, result, a⟩ psql db := by
  simp only [queryById, h.getDB_eq, transactionBegin_eq, PQexecParams_eq, h.conn_eq,
    PQresultStatus_map, freeAll_map, transactionEnd_eq, h.returnDB_eq, closeDB, PQfinish, record]
  by_cases hst : a.status = .commandOk <;>
    simp [hst, after, Operation.Keeps, Operation.Fails, Operation.log, Operation.entryLog,
      Operation.exitLog, Operation.nextNo, Operation.statementId, Operation.statementNo,
      Operation.statementResult]

theorem selectById_eq (h : s.Leases psql db) (result : Result) (sql : String) (id : Int64)
    (a : Answers) :
    s.selectById result sql id a = s.after ⟨.selectById sql id, result, a⟩ psql db := by
  simp only [selectById, h.getDB_eq, PQexecParams_eq, h.conn_eq, PQresultStatus_map, freeAll_map,
    h.returnDB_eq, closeDB, PQfinish, record]
  by_cases hst : a.status = .tuplesOk <;>
    simp [hst, after, Operation.Keeps, Operation.Fails, Operation.log, Operation.entryLog,
      Operation.exitLog, Operation.nextNo, Operation.statementId, Operation.statementNo,
      Operation.statementResult]

theorem perform_of_leases (h : s.Leases psql db) (op : Operation) :
    s.perform op = s.after op psql db := by
  obtain ⟨call, result, answers⟩ := op
  cases call with
  | query sql params => exact query_eq h result sql params answers
  | select sql params => exact select_eq h result sql params answers
  | queryById sql id => exact queryById_eq h result sql id answers
  | selectById sql id => exact selectById_eq h result sql id answers

/-- Without a free connection, an operation does nothing. -/
theorem perform_of_not_hasFree (h : ¬ s.HasFree) (op : Operation) :
    s.perform op = (s, op.result) := by
  simp only [perform]
  split <;> simp only [query, select, queryById, selectById, getDB_of_not_hasFree h]

end Client

end Codechiev
