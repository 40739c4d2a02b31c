import Codechiev.Db.Psql
import Codechiev.Base.FixedBuffer

/-!
# The operations of a `DECLEAR_PSQL_TABLE` class

`orm.h` and `orm-psql.h`: the fields of a row object, the statements that the macro generates, and
its four operations, up to what they do with the `PGresult` of the statement. Each passes a new
`Result` to one of the `PSql` operations, reads its columns from it and frees it, without a look
at how the statement ended. On their failure exits the `PSql` operations have freed it already,
and the pointer still refers to it (`tidy_iff`).
-/

namespace Codechiev

/-! ## Row objects -/

/-- The types that `Field` has a specialization for. -/
inductive FieldType where
  | string
  | int64
  | int32
  deriving DecidableEq

/-- `Field<T>`, with the value it holds. -/
inductive Field where
  | string (t : List UInt8)
  | int64 (t : Int64)
  | int32 (t : Int32)
  deriving DecidableEq

namespace Field

def type : Field → FieldType
  | string _ => .string
  | int64 _ => .int64
  | int32 _ => .int32

/-- The constructor. -/
def new : FieldType → Field
  | .string => .string []
  | .int64 => .int64 0
  | .int32 => .int32 0

/-- What the pointer that `getNetValue()` returns points to. A string has a zero byte behind
    it. -/
def getNetValue : Field → List UInt8
  | string t => t ++ [0]
  | int64 t => memoryOf64 (NetworkToHost64 t.toUInt64)
  | int32 t => memoryOf (HostToNetwork32 t.toUInt32)

/-- `getSizeof()`. -/
def getSizeof : Field → ℤ
  | string t => castInt t.length
  | int64 _ => 8
  | int32 _ => 4

theorem type_new (type : FieldType) : (new type).type = type := by
  cases type <;> rfl

end Field

/-- One element of `member_seq`: the type of the member, and the name of its column. -/
structure Member where
  type : FieldType
  column : String

/-- `DECLEAR_PSQL_TABLE(clazz, table, member_seq)`. -/
structure Table where
  table : String
  members : List Member

/-- An object of the class: `id`, and a field of its type for each member. -/
structure Row (t : Table) where
  id : Int64
  fields : List Field
  typed : fields.map Field.type = t.members.map Member.type

/-- The constructor of the class. -/
def Row.new (t : Table) : Row t where
  id := 0
  fields := t.members.map fun m => .new m.type
  typed := by
    rw [List.map_map]
    apply List.map_congr_left
    intro m _
    exact Field.type_new m.type

namespace Table

/-! ## The statements -/

/-- `PSQL_INSERT`, for the member at `i`. -/
def PSQL_INSERT (i : ℕ) : String := ",$" ++ toString (1 + i)

/-- `PSQL_UPDATE`, for the member at `i`. -/
def PSQL_UPDATE (i : ℕ) (m : Member) : String :=
  ", " ++ m.column ++ "=$" ++ toString (1 + i)

def selectByIdSql (t : Table) : String := "SELECT * FROM " ++ t.table ++ " WHERE id = $1::bigint"

def insertSql (t : Table) : String :=
  "insert into " ++ t.table ++ " values (nextval('" ++ t.table ++ "_id_seq')" ++
    String.join (t.members.mapIdx fun i _ => PSQL_INSERT i) ++ ") returning id"

def updateSql (t : Table) : String :=
  "update " ++ t.table ++ " set id=id " ++ String.join (t.members.mapIdx PSQL_UPDATE) ++
    " where id=$" ++ toString (1 + t.members.length) ++ "::bigint"

def DeleteByIdSql (t : Table) : String := "delete from " ++ t.table ++ " where id=$1::bigint"

end Table

namespace Row

variable {t : Table}

/-- The arrays that `insert` fills with `PSQL_ASSIGN`. -/
def insertParams (obj : Row t) : Params where
  nParams := t.members.length
  values := obj.fields.map Field.getNetValue
  lengths := some (obj.fields.map Field.getSizeof)
  formats := some (obj.fields.map fun _ => 1)

/-- Those of `update`, where the entry for `id` is the last. -/
def updateParams (obj : Row t) : Params where
  nParams := 1 + t.members.length
  values := (obj.fields ++ [Field.int64 obj.id]).map Field.getNetValue
  lengths := some ((obj.fields ++ [Field.int64 obj.id]).map Field.getSizeof)
  formats := some ((obj.fields ++ [Field.int64 obj.id]).map fun _ => 1)

end Row

/-! ## The operations -/

namespace Client

variable {t : Table}

/-- `TABLE_ASSIGN` for every member, as far as the `Result` goes. -/
def assignAll (s : Client) (result : Result) (members : List Member) : Client :=
  members.foldl (fun s m => s.getFieldValOfRow result m.column 0) s

/-- `clazz<PSql>::selectById()`. -/
def ormSelectById (s : Client) (obj : Row t) (a : Answers) : Client :=
  let (s, result) := s.selectById .new t.selectByIdSql obj.id a
  (s.assignAll result t.members).freeAll result

/-- `clazz<PSql>::insert()`. -/
def ormInsert (s : Client) (obj : Row t) (a : Answers) : Client :=
  let (s, result) := s.select .new t.insertSql obj.insertParams a
  (s.getFieldValOfRow result "id" 0).freeAll result

/-- `clazz<PSql>::update()`. -/
def ormUpdate (s : Client) (obj : Row t) (a : Answers) : Client :=
  let (s, result) := s.query .new t.updateSql obj.updateParams a
  s.freeAll result

/-- `clazz<PSql>::DeleteById(int64_t)`. -/
def ormDeleteById (s : Client) (t : Table) (argId : Int64) (a : Answers) : Client :=
  let (s, result) := s.queryById .new t.DeleteByIdSql argId a
  s.freeAll result

end Client

/-- A call of one of the generated operations. -/
inductive OrmCall where
  | selectById (t : Table) (obj : Row t)
  | insert (t : Table) (obj : Row t)
  | update (t : Table) (obj : Row t)
  | DeleteById (t : Table) (argId : Int64)

namespace OrmCall

/-- The `PSql` operation it passes its new `Result` to. -/
def call : OrmCall → PSqlCall
  | selectById t obj => .selectById t.selectByIdSql obj.id
  | insert t obj => .select t.insertSql obj.insertParams
  | update t obj => .query t.updateSql obj.updateParams
  | DeleteById t argId => .queryById t.DeleteByIdSql argId

/-- The columns that it reads afterwards. -/
def reads : OrmCall → List String
  | selectById t _ => t.members.map Member.column
  | insert _ _ => ["id"]
  | _ => []

def operation (c : OrmCall) (a : Answers) : Operation := ⟨c.call, .new, a⟩

end OrmCall

namespace Client

def orm (s : Client) (a : Answers) : OrmCall → Client
  | .selectById _ obj => s.ormSelectById obj a
  | .insert _ obj => s.ormInsert obj a
  | .update _ obj => s.ormUpdate obj a
  | .DeleteById t argId => s.ormDeleteById t argId a

/-- The operations one after the other, each with what the server answers during it. -/
def ormAll (s : Client) : List (OrmCall × Answers) → Client
  | [] => s
  | (c, a) :: rest => (s.orm a c).ormAll rest

end Client

/-! ## The life of a result -/

namespace DbEvent

/-- The result that the event is about. -/
def res : DbEvent → Option ResultId
  | exec _ _ res | execParams _ _ _ res | clear res | getFieldValOfRow res _ _ => res
  | _ => none

/-- The event clears the result or reads from it. -/
def Touches (r : ResultId) : DbEvent → Bool
  | clear res | getFieldValOfRow res _ _ => res = some r
  | _ => false

/-- What happens to a result, in order. -/
def life (r : ResultId) (log : List DbEvent) : List DbEvent := log.filter (Touches r)

/-- libpq returned the result for a statement. -/
def ForStatement (log : List DbEvent) (r : ResultId) : Prop :=
  ∃ conn sql params, execParams conn sql params (some r) ∈ log

/-- Every result of a statement is cleared once, and nothing is read from it after that. -/
def Tidy (log : List DbEvent) : Prop :=
  ∀ r, ForStatement log r →
    (life r log).count (clear (some r)) = 1 ∧ (life r log).getLast? = some (clear (some r))

end DbEvent

open DbEvent

theorem life_append (r : ResultId) (log log' : List DbEvent) :
    life r (log ++ log') = life r log ++ life r log' := List.filter_append ..

/-- Events about other results are no part of its life. -/
theorem life_eq_nil {r : ResultId} {log : List DbEvent} (h : ∀ e ∈ log, e.res ≠ some r) :
    life r log = [] := by
  rw [life, List.filter_eq_nil_iff]
  intro e he htouch
  have hne := h e he
  cases e <;> simp_all [Touches, res]

/-- The results in `log` are numbered from `n` up to `n'`. -/
def Numbered (n n' : ℕ) (log : List DbEvent) : Prop :=
  ∀ e ∈ log, ∀ r : ℕ, e.res = some r → n ≤ r ∧ r < n'

section Log

variable {n n₁ n' r : ℕ} {conn : ConnId} {log log' : List DbEvent}
  {a : Option ExecStatus} {op : Operation}

theorem Numbered.append (hn : n ≤ n₁) (hn' : n₁ ≤ n') (h : Numbered n n₁ log)
    (h' : Numbered n₁ n' log') : Numbered n n' (log ++ log') := by
  intro e he r hr
  rcases List.mem_append.mp he with he | he
  · have := h e he r hr
    omega
  · have := h' e he r hr
    omega

theorem Numbered.life_eq_nil (h : Numbered n n' log) (hr : r < n ∨ n' ≤ r) : life r log = [] := by
  apply Codechiev.life_eq_nil
  intro e he heq
  have := h e he r heq
  omega

theorem le_nextResult (n : ℕ) (a : Option ExecStatus) : n ≤ nextResult n a := by
  cases a with
  | none => exact le_rfl
  | some _ => exact Nat.le_succ n

theorem resultId_bounds (h : resultId n a = some r) : n ≤ r ∧ r < nextResult n a := by
  cases a with
  | none => cases h
  | some status =>
    obtain rfl : n = r := Option.some.inj h
    exact ⟨le_rfl, Nat.lt_succ_self n⟩

theorem numbered_beginLog : Numbered n (nextResult n a) (beginLog conn n a) := by
  intro e he r hr
  simp only [beginLog] at he
  apply resultId_bounds
  split at he <;> simp at he <;> rcases he with rfl | rfl <;> exact hr

theorem numbered_endLog (n : ℕ) (conn : ConnId) (a : Option ExecStatus) :
    Numbered n (nextResult n a) (endLog conn n a) := by
  intro e he r hr
  simp only [endLog, List.mem_cons, List.not_mem_nil, or_false] at he
  apply resultId_bounds
  rcases he with rfl | rfl <;> exact hr

theorem le_statementNo (op : Operation) (n : ℕ) : n ≤ op.statementNo n := by
  simp only [Operation.statementNo]
  split
  · exact le_rfl
  · exact le_nextResult _ _

theorem statementNo_le_nextNo (op : Operation) (n : ℕ) :
    nextResult (op.statementNo n) op.answers.onStatement ≤ op.nextNo n := by
  simp only [Operation.nextNo]
  split
  · exact le_rfl
  · exact le_nextResult _ _
  · split
    · exact le_rfl
    · exact le_nextResult _ _

theorem numbered_entryLog (op : Operation) (conn : ConnId) (n : ℕ) :
    Numbered n (op.statementNo n) (op.entryLog conn n) := by
  simp only [Operation.entryLog, Operation.statementNo]
  split
  · intro e he
    cases he
  · exact numbered_beginLog

theorem mem_exitLog {e : DbEvent} (h : e ∈ op.exitLog conn n) :
    e = .clear (op.statementId n) ∨ e = .finish conn ∨
      e ∈ endLog conn (nextResult (op.statementNo n) op.answers.onStatement) op.answers.onEnd ∧
        op.nextNo n =
          nextResult (nextResult (op.statementNo n) op.answers.onStatement) op.answers.onEnd := by
  by_cases hf : op.Fails <;> obtain ⟨call, result, answers⟩ := op <;> cases call <;>
    simp [Operation.exitLog, hf, Operation.nextNo] at h ⊢ <;> tauto

/-- The exits log the statement's result and the one of the `END`. -/
theorem numbered_exitLog (op : Operation) (conn : ConnId) (n : ℕ) :
    Numbered (op.statementNo n) (op.nextNo n) (op.exitLog conn n) := by
  intro e he r hr
  have hle := le_nextResult (op.statementNo n) op.answers.onStatement
  have hnext := statementNo_le_nextNo op n
  rcases mem_exitLog he with rfl | rfl | ⟨hend, hno⟩
  · have := resultId_bounds hr
    omega
  · cases hr
  · have := numbered_endLog _ conn _ e hend r hr
    omega

/-- The log of an operation, of the reads after it and of `freeAll`. -/
def useLog (op : Operation) (columns : List String) (conn : ConnId) (n : ℕ) : List DbEvent :=
  op.log conn n ++ (columns.map fun column => .getFieldValOfRow (op.statementId n) column 0) ++
    [.clear (op.statementId n)]

variable {columns : List String}

theorem numbered_useLog : Numbered n (op.nextNo n) (useLog op columns conn n) := by
  have hentry := numbered_entryLog op conn n
  have hexit := numbered_exitLog op conn n
  have hnext := statementNo_le_nextNo op n
  have hfirst := le_statementNo op n
  intro e he r hr
  have hstmt : op.statementId n = some r → n ≤ r ∧ r < op.nextNo n := by
    intro hid
    have := resultId_bounds hid
    omega
  simp only [useLog, Operation.log, List.mem_append, List.mem_cons, List.mem_map,
    List.not_mem_nil, or_false] at he
  rcases he with (((rfl | he) | rfl | he) | ⟨column, -, rfl⟩) | rfl
  · cases hr
  · have := hentry e he r hr
    have := le_nextResult (op.statementNo n) op.answers.onStatement
    omega
  · exact hstmt hr
  · have := hexit e he r hr
    omega
  · exact hstmt hr
  · exact hstmt hr

/-- The exits clear the statement's result if the statement failed. -/
theorem life_exitLog (conn : ConnId) (h : op.statementId n = some r) :
    life r (op.exitLog conn n) = if op.Fails then [.clear (some r)] else [] := by
  have hr : r < nextResult (op.statementNo n) op.answers.onStatement := (resultId_bounds h).2
  have hend := (numbered_endLog _ conn op.answers.onEnd).life_eq_nil (.inl hr)
  by_cases hf : op.Fails <;> obtain ⟨call, result, answers⟩ := op <;> cases call <;>
    simp_all [Operation.exitLog, life, Touches]

theorem life_useLog (h : op.statementId n = some r) :
    life r (useLog op columns conn n) =
      (if op.Fails then [.clear (some r)] else []) ++
        (columns.map fun column => .getFieldValOfRow (some r) column 0) ++ [.clear (some r)] := by
  have hr := (resultId_bounds h).1
  have hentry := (numbered_entryLog op conn n).life_eq_nil (.inr hr)
  have hexit := life_exitLog conn h
  have hreads : life r (columns.map fun column => .getFieldValOfRow (some r) column 0) =
      columns.map fun column => .getFieldValOfRow (some r) column 0 := by
    rw [life, List.filter_eq_self]
    intro e he
    obtain ⟨column, -, rfl⟩ := List.mem_map.mp he
    simp [Touches]
  have hlog : life r (op.log conn n) =
      life r (op.entryLog conn n) ++ life r (op.exitLog conn n) := by
    simp [Operation.log, life, Touches]
  have hclear : life r [.clear (some r)] = [.clear (some r)] := by simp [life, Touches]
  rw [useLog, h, life_append, life_append, hreads, hlog, hentry, hexit, hclear, List.nil_append]

theorem forStatement_useLog :
    ForStatement (useLog op columns conn n) r ↔ op.statementId n = some r := by
  constructor
  · rintro ⟨c, sql, params, hmem⟩
    simp only [useLog, Operation.log, List.mem_append, List.mem_cons, List.mem_map,
      List.not_mem_nil, or_false, reduceCtorEq, and_false, exists_false, false_or] at hmem
    rcases hmem with hmem | hmem | hmem
    · simp only [Operation.entryLog] at hmem
      split at hmem
      · cases hmem
      · simp only [beginLog] at hmem
        split at hmem <;> simp at hmem
    · exact (DbEvent.execParams.inj hmem).2.2.2.symm
    · rcases mem_exitLog hmem with h | h | ⟨h, -⟩
      · cases h
      · cases h
      · simp [endLog] at h
  · intro h
    refine ⟨conn, op.call.sql, op.call.params, ?_⟩
    simp [useLog, Operation.log, h]

/-- One operation clears the result of its statement once, and last, if and only if the statement
    did not fail or libpq returned no result for it. -/
theorem tidy_useLog :
    Tidy (useLog op columns conn n) ↔ ¬ (op.answers.onStatement.isSome ∧ op.Fails) := by
  cases hst : op.answers.onStatement with
  | none =>
    have hid : op.statementId n = none := by rw [Operation.statementId, hst]; rfl
    simp [Tidy, forStatement_useLog, hid]
  | some status =>
    have hid : op.statementId n = some (op.statementNo n) := by
      rw [Operation.statementId, hst]; rfl
    simp only [Tidy, forStatement_useLog, hid, Option.some.injEq, forall_eq', life_useLog hid]
    by_cases hf : op.Fails <;> simp [hf, List.count_eq_zero]

/-- Events about new results do not change what happened to the old ones. -/
theorem tidy_append (hlog : Numbered 0 n log) (hlog' : Numbered n n' log') :
    Tidy (log ++ log') ↔ Tidy log ∧ Tidy log' := by
  have hstmt : ∀ {l : List DbEvent} {m m' r : ℕ}, Numbered m m' l → ForStatement l r →
      m ≤ r ∧ r < m' := by
    rintro l m m' r hl ⟨conn, sql, params, hmem⟩
    exact hl _ hmem r rfl
  have hsplit : ∀ r, ForStatement (log ++ log') r ↔ ForStatement log r ∨ ForStatement log' r := by
    intro r
    simp only [ForStatement, List.mem_append, exists_or]
  have hold : ∀ r, ForStatement log r → life r (log ++ log') = life r log := by
    intro r hr
    rw [life_append, hlog'.life_eq_nil (.inl (hstmt hlog hr).2), List.append_nil]
  have hnew : ∀ r, ForStatement log' r → life r (log ++ log') = life r log' := by
    intro r hr
    rw [life_append, hlog.life_eq_nil (.inr (hstmt hlog' hr).1), List.nil_append]
  constructor
  · intro h
    refine ⟨fun r hr => ?_, fun r hr => ?_⟩
    · rw [← hold r hr]
      exact h r ((hsplit r).mpr (.inl hr))
    · rw [← hnew r hr]
      exact h r ((hsplit r).mpr (.inr hr))
  · rintro ⟨h, h'⟩ r hr
    rcases (hsplit r).mp hr with hr | hr
    · rw [hold r hr]
      exact h r hr
    · rw [hnew r hr]
      exact h' r hr

end Log

/-! ## Runs -/

namespace Client

variable {s : Client}

/-- The operation gets a connection and a result for its statement, and the statement failed. -/
def Mistreats (s : Client) (c : OrmCall) (a : Answers) : Prop :=
  s.HasFree ∧ a.onStatement.isSome ∧ (c.operation a).Fails

/-- No operation of the run does. -/
def Careful (s : Client) : List (OrmCall × Answers) → Prop
  | [] => True
  | (c, a) :: rest => ¬ s.Mistreats c a ∧ (s.orm a c).Careful rest

theorem assignAll_eq (s : Client) (result : Result) (members : List Member) :
    s.assignAll result members =
      { s with log := s.log ++ members.map fun m =>
          .getFieldValOfRow (result.res.map PGresult.id) m.column 0 } := by
  induction members generalizing s with
  | nil => simp [assignAll]
  | cons m rest ih =>
    have hcons : s.assignAll result (m :: rest) =
        (s.getFieldValOfRow result m.column 0).assignAll result rest := rfl
    rw [hcons, ih]
    simp [getFieldValOfRow, record]

/-- Every operation is one `PSql` operation, the reads of its columns and `freeAll`. -/
theorem orm_eq (s : Client) (c : OrmCall) (a : Answers) :
    s.orm a c =
      { (s.perform (c.operation a)).1 with
        log := (s.perform (c.operation a)).1.log ++
          (c.reads.map fun column => .getFieldValOfRow
            ((s.perform (c.operation a)).2.res.map PGresult.id) column 0) ++
          [.clear ((s.perform (c.operation a)).2.res.map PGresult.id)] } := by
  cases c with
  | selectById t obj =>
    simp only [orm, ormSelectById, assignAll_eq]
    simp [freeAll, PQclear, record, OrmCall.reads, OrmCall.operation, OrmCall.call, perform]
  | insert t obj =>
    simp [orm, ormInsert, getFieldValOfRow, freeAll, PQclear, record, OrmCall.reads,
      OrmCall.operation, OrmCall.call, perform]
  | update t obj =>
    simp [orm, ormUpdate, freeAll, PQclear, record, OrmCall.reads, OrmCall.operation,
      OrmCall.call, perform]
  | DeleteById t argId =>
    simp [orm, ormDeleteById, freeAll, PQclear, record, OrmCall.reads, OrmCall.operation,
      OrmCall.call, perform]

/-- What an operation logs, on the connection it leases or without one. -/
theorem orm_log (s : Client) (c : OrmCall) (a : Answers) :
    ∃ evs, (s.orm a c).log = s.log ++ evs ∧
      Numbered s.results (s.orm a c).results evs ∧ s.results ≤ (s.orm a c).results ∧
      (Tidy evs ↔ ¬ s.Mistreats c a) := by
  rw [orm_eq]
  by_cases hfree : s.HasFree
  · obtain ⟨psql, db, -, -, hleases⟩ := leases_of_hasFree hfree
    rw [perform_of_leases hleases]
    have hid : (((c.operation a).statementResult s.results).res.map PGresult.id) =
        (c.operation a).statementId s.results := by
      simp only [Operation.statementResult, Operation.statementId]
      cases (c.operation a).answers.onStatement <;> rfl
    refine ⟨useLog (c.operation a) c.reads db.conn s.results, ?_, numbered_useLog, ?_, ?_⟩
    · simp only [after, hid, useLog, List.append_assoc]
    · exact (le_statementNo _ _).trans ((le_nextResult _ _).trans (statementNo_le_nextNo _ _))
    · rw [tidy_useLog, Mistreats, and_iff_right hfree]
      rfl
  · rw [perform_of_not_hasFree hfree]
    refine ⟨(c.reads.map fun column => .getFieldValOfRow none column 0) ++ [.clear none], ?_, ?_,
      le_rfl, ?_⟩
    · simp [OrmCall.operation, Result.new]
    · intro e he r hr
      simp only [List.mem_append, List.mem_map, List.mem_singleton] at he
      rcases he with ⟨column, -, rfl⟩ | rfl <;> cases hr
    · refine iff_of_true ?_ fun h => hfree h.1
      rintro r ⟨conn, sql, params, hmem⟩
      simp at hmem

/-- In a run of generated operations on any pool, every `PGresult` of a statement is cleared
    exactly once and not read after that, if and only if no operation that got a connection had its
    statement end with a `PGresult` of another status than the one expected. -/
theorem tidy_iff (dbs : List PSql) (calls : List (OrmCall × Answers)) :
    Tidy ((Client.mk ⟨dbs⟩ [] 0 0).ormAll calls).log ↔ (Client.mk ⟨dbs⟩ [] 0 0).Careful calls := by
  have hrun : ∀ s : Client, Numbered 0 s.results s.log →
      (Tidy (s.ormAll calls).log ↔ Tidy s.log ∧ s.Careful calls) := by
    induction calls with
    | nil => simp [ormAll, Careful]
    | cons call rest ih =>
      obtain ⟨c, a⟩ := call
      intro s hs
      obtain ⟨evs, hlog, hnum, hle, htidy⟩ := orm_log s c a
      have hnext : Numbered 0 (s.orm a c).results (s.orm a c).log := by
        rw [hlog]
        exact hs.append (Nat.zero_le _) hle hnum
      rw [ormAll, ih _ hnext, hlog, tidy_append hs hnum, htidy, Careful, and_assoc]
  rw [hrun _ (fun e he => by cases he)]
  apply and_iff_right
  rintro r ⟨conn, sql, params, hmem⟩
  cases hmem

/-- The server refuses the statement: `queryById` clears the result, and `DeleteById` again. -/
theorem delete_clears_twice :
    ¬ ∀ (dbs : List PSql) (calls : List (OrmCall × Answers)),
      Tidy ((Client.mk ⟨dbs⟩ [] 0 0).ormAll calls).log := by
  intro h
  have htidy := h [⟨0, false⟩]
    [(.DeleteById ⟨"users", []⟩ 1, ⟨some .commandOk, some .fatalError, none⟩)]
  have hcount := (htidy 1 ⟨0, "delete from users where id=$1::bigint", idParam 1, by decide⟩).1
  revert hcount
  decide

end Client

end Codechiev
