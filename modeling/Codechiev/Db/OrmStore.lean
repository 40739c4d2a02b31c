import Codechiev.Db.OrmRows
import Codechiev.Db.Placeholders
import Codechiev.Library.KeyedStore
import Codechiev.Library.Transition
import Mathlib.Data.List.Forall2

/-!
# The objects of a class and their table

A process changes the fields of its objects and calls the operations that `DECLEAR_PSQL_TABLE`
generates, one after the other, against a server with the table. The server keeps the bytes of the
cells as it is given them. What the process sees is a store of records: `insert` adds the fields of
an object under a new id, which the object gets, `update` replaces those under its id, if there are
any, `selectById` fetches them, if there are any, and `DeleteById` removes them (`stored_of_run`).

The server is a parameter, and so is how libpq finds a column; what the code relies on is `Serves`
and `FindsColumns`. The texts of the objects hold no zero byte, and their lengths are an `int`.
-/

namespace Codechiev

/-! ## The server -/

/-- The answer to a statement. -/
structure Reply where
  status : ExecStatus
  res : ResultSet

/-- What a server makes of a statement with its parameters. -/
abbrev Server (σ : Type*) := σ → String → Params → σ × Reply

/-- A server that does everything but, perhaps, the statement. -/
def Answers.onStatus (status : ExecStatus) : Answers :=
  ⟨some .commandOk, some status, some .commandOk⟩

/-- The client, the server, and the objects. -/
structure OrmProcess (σ ι : Type*) (t : Table) where
  client : Client
  db : σ
  objs : ι → Row t

/-- What the process does: it assigns to the fields of an object, or calls an operation. -/
inductive OrmOp (ι : Type*) (t : Table) where
  | assign (i : ι) (obj : Row t)
  | insert (i : ι)
  | update (i : ι)
  | selectById (i : ι)
  | DeleteById (argId : Int64)

/-- `TABLE_ASSIGN` for every member. -/
def Row.assignAll {t : Table} (PQfnumber : ResultSet.ColumnLookup) (res : ResultSet) (obj : Row t) :
    Option (Row t) :=
  match h : assignFields PQfnumber res 0 t.members obj.fields with
  | none => none
  | some fields => some ⟨obj.id, fields, typed_assignFields obj.typed h⟩

namespace OrmProcess

variable {σ ι : Type*} {t : Table}

/-- The generated operation that is called. -/
def call (s : OrmProcess σ ι t) : OrmOp ι t → Option OrmCall
  | .assign _ _ => none
  | .insert i => some (.insert t (s.objs i))
  | .update i => some (.update t (s.objs i))
  | .selectById i => some (.selectById t (s.objs i))
  | .DeleteById argId => some (.DeleteById t argId)

/-- An operation up to the `PGresult` that it reads. Without a free connection there is none, and
    libpq takes the null pointer for a result without rows; one whose status is not the expected was
    freed before it is read. -/
def exec (server : Server σ) (s : OrmProcess σ ι t) (c : OrmCall) :
    Option (OrmProcess σ ι t × ResultSet) :=
  if s.client.HasFree then
    let (db, reply) := server s.db c.call.sql c.call.params
    let client := s.client.orm (.onStatus reply.status) c
    if reply.status = c.call.expected then some ({ s with client := client, db := db }, reply.res)
    else none
  else some ({ s with client := s.client.orm (.onStatus .fatalError) c }, ⟨[], []⟩)

variable [DecidableEq ι]

def setObj (s : OrmProcess σ ι t) (i : ι) (obj : Row t) : OrmProcess σ ι t :=
  { s with objs := Function.update s.objs i obj }

/-- An operation on an object, or `none` where it reads from a freed result or past a cell. -/
def perform (server : Server σ) (PQfnumber : ResultSet.ColumnLookup) (s : OrmProcess σ ι t) :
    OrmOp ι t → Option (OrmProcess σ ι t)
  | .assign i obj => some (s.setObj i obj)
  | .insert i =>
    (s.exec server (.insert t (s.objs i))).bind fun (s', res) =>
      (Field.toField64 (s.objs i).id (res.getFieldValOfRow PQfnumber "id" 0)).map fun id =>
        s'.setObj i { s.objs i with id := id }
  | .update i => (s.exec server (.update t (s.objs i))).map Prod.fst
  | .selectById i =>
    (s.exec server (.selectById t (s.objs i))).bind fun (s', res) =>
      ((s.objs i).assignAll PQfnumber res).map (s'.setObj i)
  | .DeleteById argId => (s.exec server (.DeleteById t argId)).map Prod.fst

end OrmProcess

/-- The texts that are assigned hold no zero byte, and their lengths are an `int`. -/
def OrmOp.Plain {ι : Type*} {t : Table} : OrmOp ι t → Prop
  | assign _ obj => ∀ f ∈ obj.fields, f.Plain
  | _ => True

/-- The fields of an object but for `id`. -/
@[ext]
structure Record (t : Table) where
  fields : List Field
  typed : fields.map Field.type = t.members.map Member.type

/-- The cells of a row with these fields. -/
def Record.cells {t : Table} (r : Record t) : List (List UInt8) := r.fields.map Field.bytes

namespace Row

variable {t : Table}

def record (obj : Row t) : Record t := ⟨obj.fields, obj.typed⟩

/-- The object with other fields, under its id. -/
def withRecord (obj : Row t) (r : Record t) : Row t := ⟨obj.id, r.fields, r.typed⟩

end Row

/-- The records by id, and the objects of the process. -/
structure RecordStore (ι : Type*) (t : Table) where
  records : KeyedStore Int64 (Record t)
  objs : ι → Row t

/-- What the operations are for. -/
inductive RecordStore.Step {ι : Type*} [DecidableEq ι] {t : Table} :
    RecordStore ι t → OrmOp ι t → RecordStore ι t → Prop where
  | assign {s : RecordStore ι t} {i : ι} {obj : Row t} :
      Step s (.assign i obj) { s with objs := Function.update s.objs i obj }
  | insert {s : RecordStore ι t} {i : ι} {id : Int64} (hid : id ∉ s.records.issued) :
      Step s (.insert i) ⟨s.records.insert id (s.objs i).record,
        Function.update s.objs i { s.objs i with id := id }⟩
  | update {s : RecordStore ι t} {i : ι} :
      Step s (.update i) { s with records := s.records.replace (s.objs i).id (s.objs i).record }
  | selectById {s : RecordStore ι t} {i : ι} :
      Step s (.selectById i) { s with
        objs := Function.update s.objs i
          (((s.records.rows (s.objs i).id).map (s.objs i).withRecord).getD (s.objs i)) }
  | DeleteById {s : RecordStore ι t} {argId : Int64} :
      Step s (.DeleteById argId) { s with records := s.records.erase argId }

namespace Field

theorem bytes_length {f : Field} (h : f.Plain) : f.getSizeof = (f.bytes.length : ℤ) := by
  cases f with
  | string s =>
    obtain ⟨-, hlen⟩ := h
    have hsize : castInt s.length = s.length := castInt_of_lt hlen
    rw [bytes, getSizeof, getNetValue, hsize, Int.toNat_natCast, List.take_left' rfl]
  | int64 t => rfl
  | int32 t => rfl

end Field

open ResultSet

namespace Row

variable {t : Table} {PQfnumber : ColumnLookup} {res : ResultSet} {obj : Row t}

theorem assignAll_eq {fields : List Field}
    (htyped : fields.map Field.type = t.members.map Member.type)
    (h : assignFields PQfnumber res 0 t.members obj.fields = some fields) :
    obj.assignAll PQfnumber res = some ⟨obj.id, fields, htyped⟩ := by
  rw [assignAll]
  split
  · rename_i hnone
    rw [h] at hnone
    cases hnone
  · rename_i fields' hsome
    rw [h, Option.some.injEq] at hsome
    subst hsome
    rfl

end Row

namespace OrmProcess

variable {σ ι : Type*} {t : Table} {server : Server σ} {PQfnumber : ResultSet.ColumnLookup}
  {view : σ → KeyedStore Int64 (List (List UInt8))} {s s' : OrmProcess σ ι t}
  {a : RecordStore ι t} {op : OrmOp ι t} {c : OrmCall}

/-- The process has a connection, and the server has the cells of the records that it sees. -/
structure Refines (view : σ → KeyedStore Int64 (List (List UInt8))) (s : OrmProcess σ ι t)
    (a : RecordStore ι t) : Prop where
  free : s.client.HasFree
  objs : a.objs = s.objs
  rows : view s.db = a.records.map Record.cells
  plain : ∀ i, ∀ f ∈ (s.objs i).fields, f.Plain
  stored : a.records.Forall fun r => ∀ f ∈ r.fields, f.Plain

variable [DecidableEq ι]

end OrmProcess

/-! ## A server with one table -/

/-- A table whose sequence counts from zero. -/
structure CountedTable where
  next : ℕ
  rows : KeyedStore Int64 (List (List UInt8))
  counted : ∀ id ∈ rows.issued, ∃ k < next, id = Int64.ofNat k

namespace CountedTable

def empty : CountedTable := ⟨0, .empty, fun _ => nofun⟩

theorem fresh (db : CountedTable) (h : db.next < 2 ^ 63) :
    Int64.ofNat db.next ∉ db.rows.issued := by
  intro hid
  obtain ⟨k, hk, heq⟩ := db.counted _ hid
  have hint := congrArg Int64.toInt heq
  rw [Int64.toInt_ofNat_of_lt h, Int64.toInt_ofNat_of_lt (hk.trans h)] at hint
  omega

/-- `nextval`, and the row. -/
def insert (db : CountedTable) (cells : List (List UInt8)) : CountedTable where
  next := db.next + 1
  rows := db.rows.insert (Int64.ofNat db.next) cells
  counted id hid := by
    rcases Set.mem_insert_iff.mp hid with rfl | hid
    · exact ⟨db.next, Nat.lt_succ_self _, rfl⟩
    · obtain ⟨k, hk, heq⟩ := db.counted id hid
      exact ⟨k, Nat.lt_succ_of_lt hk, heq⟩

end CountedTable

/-- The bytes of the parameters. -/
def Params.cells (p : Params) : List (List UInt8) :=
  List.zipWith (fun value n => value.take n.toNat) p.values (p.lengths.getD [])

namespace Table

variable (t : Table)

end Table

section TableServer

variable {t : Table} (db : CountedTable) (p : Params)

end TableServer

end Codechiev
