import Codechiev.Db.OrmPsql
import Codechiev.Library.ArrayFill
import Codechiev.Library.SqlScanner

/-!
# Placeholders and parameters of the generated statements

`PSQL_INSERT`, `PSQL_UPDATE` and `PSQL_ASSIGN` run over the members three times: for the text, with
numbers from one, and for the arrays, with indices from zero. The placeholders of the text are
those that PostgreSQL finds in it, and the arrays are filled one assignment at a time
(`placeholders_agree`). The macros paste the names into the text as they are: a name with a
placeholder in it adds one, and a name that leaves a quote or a comment open hides those behind it.
-/

namespace Codechiev

open Sql ArrayFill

/-- The assignments of `PSQL_ASSIGN` for one member, to `val`, `len` and `format`. -/
structure ParamAssign where
  index : ℕ
  val : List UInt8
  len : ℤ
  format : ℤ

/-- `PSQL_ASSIGN`, for the field of the member at `i`. -/
def PSQL_ASSIGN (i : ℕ) (f : Field) : ParamAssign := ⟨i, f.getNetValue, f.getSizeof, 1⟩

namespace Row

variable {t : Table}

/-- The assignments of `insert`. -/
def insertAssigns (obj : Row t) : List ParamAssign := obj.fields.mapIdx PSQL_ASSIGN

/-- Those of `update`, where the entry for `id` is assigned first. -/
def updateAssigns (obj : Row t) : List ParamAssign :=
  PSQL_ASSIGN t.members.length (.int64 obj.id) :: obj.fields.mapIdx PSQL_ASSIGN

end Row

/-- The three arrays, of the size that is passed with them, are what the assignments make of arrays
    without initial values, and each of their entries is assigned once. -/
structure Params.FilledBy (p : Params) (as : List ParamAssign) : Prop where
  once : (as.map ParamAssign.index).Perm (List.range p.nParams)
  values : fill p.nParams (as.map fun a => (a.index, a.val)) = some (p.values.map some)
  lengths : ∃ len, p.lengths = some len ∧
    fill p.nParams (as.map fun a => (a.index, a.len)) = some (len.map some)
  formats : ∃ format, p.formats = some format ∧
    fill p.nParams (as.map fun a => (a.index, a.format)) = some (format.map some)

/-- How many bytes the value of a field has. -/
def Field.byteLength : Field → ℕ
  | string t => t.length
  | int64 _ => 8
  | int32 _ => 4

/-- The value, the byte length and the binary format of each field, in order. -/
def Params.binary (fields : List Field) : Params where
  nParams := fields.length
  values := fields.map Field.getNetValue
  lengths := some (fields.map fun f => (f.byteLength : ℤ))
  formats := some (fields.map fun _ => 1)

/-- The names of the table and of its columns neither add a placeholder nor hide one. The name of
    the table also stands in the quotes of `nextval`. -/
structure Table.Inert (t : Table) : Prop where
  table : Sql.Inert t.table
  sequence : QuotedInert t.table
  columns : ∀ m ∈ t.members, Sql.Inert m.column

/-- The placeholder has the number, and stands after the column and `=`. -/
def AssignedTo (x : String × ℕ) (y : List Char × ℕ) : Prop :=
  y.2 = x.2 ∧ (' ' :: (x.1.toList ++ ['='])) <:+ y.1

variable {t : Table} {m : Mode} {n : ℕ} {front rest : List Char}

/-! ## The text -/

namespace Table

/-- The columns and the numbers of their placeholders. -/
def numbered (t : Table) : List (String × ℕ) := t.members.mapIdx fun i m => (m.column, 1 + i)

theorem numbered_snd (t : Table) :
    t.numbered.map Prod.snd = List.range' 1 t.members.length := by
  rw [numbered, map_mapIdx, List.range'_eq_map_range, ← mapIdx_index, map_mapIdx]

theorem toList_insertSql (t : Table) :
    t.insertSql.toList = "insert into ".toList ++ (t.table.toList ++ (" values (nextval('".toList ++
      (t.table.toList ++ ("_id_seq')".toList ++
        ((List.range' 1 t.members.length).flatMap (fun k => (",$" ++ toString k).toList) ++
          ") returning id".toList))))) := by
  have hmembers : (String.join (t.members.mapIdx fun i _ => PSQL_INSERT i)).toList =
      (List.range' 1 t.members.length).flatMap fun k => (",$" ++ toString k).toList := by
    rw [String.toList_join, ← numbered_snd, numbered, List.flatMap_def, List.flatMap_def,
      map_mapIdx, map_mapIdx, map_mapIdx]
    rfl
  show ("insert into " ++ t.table ++ " values (nextval('" ++ t.table ++ "_id_seq')" ++
    String.join _ ++ ") returning id").toList = _
  rw [← hmembers]
  simp only [String.toList_append, List.append_assoc]

theorem toList_updateSql (t : Table) :
    t.updateSql.toList = "update ".toList ++ (t.table.toList ++ (" set id=id ".toList ++
      (t.numbered.flatMap (fun m => (", " ++ m.1 ++ "=$" ++ toString m.2).toList) ++
        (" where id=$".toList ++
          ((toString (1 + t.members.length)).toList ++ "::bigint".toList))))) := by
  have hmembers : (String.join (t.members.mapIdx PSQL_UPDATE)).toList =
      t.numbered.flatMap fun m => (", " ++ m.1 ++ "=$" ++ toString m.2).toList := by
    rw [String.toList_join, numbered, List.flatMap_def, List.flatMap_def, map_mapIdx, map_mapIdx]
    rfl
  show ("update " ++ t.table ++ " set id=id " ++ String.join _ ++ " where id=$" ++
    toString (1 + t.members.length) ++ "::bigint").toList = _
  rw [← hmembers]
  simp only [String.toList_append, List.append_assoc]

end Table

open Table

/-- The placeholders of `insert`. -/
theorem scan_insert (ks : List ℕ) (hm : m.outside) :
    (scan front m (ks.flatMap (fun k => (",$" ++ toString k).toList) ++
      ") returning id".toList)).map Prod.snd = ks := by
  induction ks generalizing front m with
  | nil =>
    have htail : ∀ cs : List Char, scan front m (')' :: cs) = scan (front ++ [')']) .plain cs :=
      fun _ => scan_cons_separator hm (by decide)
    rw [List.flatMap_nil, List.nil_append]
    show (scan front m (')' :: " returning id".toList)).map Prod.snd = []
    rw [htail, scan_eq_nil rfl]
    rfl
  | cons k ks ih =>
    have hitem : ∀ cs : List Char, scan front m (',' :: cs) = scan (front ++ [',']) .plain cs :=
      fun _ => scan_cons_separator hm (by decide)
    have hrest : ∀ c ∈ (ks.flatMap (fun k => (",$" ++ toString k).toList) ++
        ") returning id".toList).head?, c.isDigit = false := by
      cases ks with
      | nil =>
        intro c hc
        cases hc
        rfl
      | cons k ks =>
        intro c hc
        rw [List.flatMap_cons, String.toList_append] at hc
        cases hc
        rfl
    rw [List.flatMap_cons, String.toList_append, List.append_assoc, List.append_assoc]
    show (scan front m (',' :: '$' :: ((toString k).toList ++ _))).map Prod.snd = _
    rw [hitem, scan_param k hrest, List.map_cons, ih rfl]

/-- The placeholders of `update`, each after its column. -/
theorem scan_update (ms : List (String × ℕ)) (hms : ∀ x ∈ ms, Sql.Inert x.1) (hm : m.outside) :
    List.Forall₂ AssignedTo (ms ++ [("id", n)])
      (scan front m (ms.flatMap (fun x => (", " ++ x.1 ++ "=$" ++ toString x.2).toList) ++
        (" where id=$".toList ++ ((toString n).toList ++ "::bigint".toList)))) := by
  induction ms generalizing front m with
  | nil =>
    have hspace : ∀ cs : List Char, scan front m (' ' :: cs) = scan (front ++ [' ']) .plain cs :=
      fun _ => scan_cons_separator hm (by decide)
    have hlast : ∀ c ∈ "::bigint".toList.head?, c.isDigit = false := by
      intro c hc
      cases hc
      rfl
    rw [List.flatMap_nil, List.nil_append]
    show List.Forall₂ AssignedTo [("id", n)] (scan front m (' ' :: ("where id=".toList ++
      '$' :: ((toString n).toList ++ "::bigint".toList))))
    rw [hspace, scan_append rfl]
    show List.Forall₂ AssignedTo [("id", n)] (scan _ .plain _)
    rw [scan_param n hlast, scan_eq_nil rfl]
    exact .cons ⟨rfl, front ++ " where".toList, by simp⟩ .nil
  | cons x ms ih =>
    obtain ⟨hx, hms⟩ := List.forall_mem_cons.mp hms
    have hcomma : ∀ cs : List Char, scan front m (',' :: cs) = scan (front ++ [',']) .plain cs :=
      fun _ => scan_cons_separator hm (by decide)
    have hspace : ∀ (f cs : List Char), scan f .plain (' ' :: cs) = scan (f ++ [' ']) .plain cs :=
      fun _ _ => rfl
    have hequals : ∀ (f cs : List Char), scan f (after .plain x.1.toList) ('=' :: cs) =
        scan (f ++ ['=']) .plain cs := fun _ _ => scan_cons_separator hx.2 (by decide)
    have hrest : ∀ c ∈ (ms.flatMap (fun x => (", " ++ x.1 ++ "=$" ++ toString x.2).toList) ++
        (" where id=$".toList ++ ((toString n).toList ++ "::bigint".toList))).head?,
        c.isDigit = false := by
      cases ms with
      | nil =>
        intro c hc
        cases hc
        rfl
      | cons x ms =>
        intro c hc
        simp only [List.flatMap_cons, String.toList_append, List.append_assoc] at hc
        cases hc
        rfl
    simp only [List.flatMap_cons, String.toList_append, List.append_assoc] at ih hrest ⊢
    show List.Forall₂ AssignedTo _ (scan front m (',' :: ' ' :: (x.1.toList ++
      '=' :: '$' :: ((toString x.2).toList ++ _))))
    rw [hcomma, hspace, scan_inert hx, hequals, scan_param x.2 hrest]
    exact .cons ⟨rfl, front ++ [','], by simp⟩ (ih hms rfl)

theorem placeholders_insertSql (ht : t.Inert) :
    (placeholders t.insertSql).map Prod.snd = List.range' 1 t.members.length := by
  have hinto : ∀ cs : List Char, scan [] .plain ("insert into ".toList ++ cs) =
      scan "insert into ".toList .plain cs := fun _ => scan_append rfl
  have hvalues : ∀ f cs : List Char,
      scan f (after .plain t.table.toList) (" values (nextval('".toList ++ cs) =
        scan (f ++ [' '] ++ "values (nextval('".toList) (.text false) cs := by
    intro f cs
    show scan f _ (' ' :: ("values (nextval('".toList ++ cs)) = _
    rw [scan_cons_separator ht.table.2 (by decide), scan_append rfl]
    rfl
  obtain ⟨escapes, htext⟩ : ∃ escapes, after (.text false) t.table.toList = .text escapes := by
    have hin := ht.sequence.2
    cases hmode : after (.text false) t.table.toList with
    | text escapes => exact ⟨escapes, rfl⟩
    | _ => rw [hmode] at hin; cases hin
  have hseq : silent (.text escapes) "_id_seq')".toList ∧
      after (.text escapes) "_id_seq')".toList = .plain := by
    cases escapes <;> exact ⟨rfl, rfl⟩
  rw [placeholders, toList_insertSql, hinto, scan_inert ht.table, hvalues,
    scan_append ht.sequence.1, htext, scan_append hseq.1, hseq.2]
  exact scan_insert _ rfl

theorem placeholders_updateSql (ht : t.Inert) :
    List.Forall₂ AssignedTo (t.numbered ++ [("id", 1 + t.members.length)])
      (placeholders t.updateSql) := by
  have hupdate : ∀ cs : List Char, scan [] .plain ("update ".toList ++ cs) =
      scan "update ".toList .plain cs := fun _ => scan_append rfl
  have hset : ∀ f cs : List Char,
      scan f (after .plain t.table.toList) (" set id=id ".toList ++ cs) =
        scan (f ++ [' '] ++ "set id=id ".toList) .plain cs := by
    intro f cs
    show scan f _ (' ' :: ("set id=id ".toList ++ cs)) = _
    rw [scan_cons_separator ht.table.2 (by decide), scan_append rfl]
    rfl
  have hnames : ∀ x ∈ t.numbered, Sql.Inert x.1 := by
    intro x hx
    obtain ⟨i, hi, rfl⟩ := List.mem_mapIdx.mp hx
    exact ht.columns _ (List.getElem_mem hi)
  rw [placeholders, toList_updateSql, hupdate, scan_inert ht.table, hset]
  exact scan_update _ hnames rfl

/-- The numbers alone. -/
theorem map_snd_of_assignedTo {xs : List (String × ℕ)} {ys : List (List Char × ℕ)}
    (h : List.Forall₂ AssignedTo xs ys) : ys.map Prod.snd = xs.map Prod.snd := by
  induction h with
  | nil => rfl
  | cons hxy _ ih => rw [List.map_cons, List.map_cons, hxy.1, ih]

theorem numbers_updateSql (ht : t.Inert) :
    (placeholders t.updateSql).map Prod.snd = List.range' 1 (1 + t.members.length) := by
  have hlast : List.range' 1 (1 + t.members.length) =
      List.range' 1 t.members.length ++ [1 + t.members.length] := by
    rw [Nat.add_comm 1 t.members.length, List.range'_concat, Nat.one_mul, Nat.add_comm]
  rw [map_snd_of_assignedTo (placeholders_updateSql ht), List.map_append, numbered_snd, hlast]
  rfl

/-! ## The arrays -/

variable {fields : List Field} {as : List ParamAssign}

/-- One of the three arrays. -/
theorem fill_assigns {α : Type*} (has : as.Perm (fields.mapIdx PSQL_ASSIGN)) (g : ParamAssign → α)
    (h : Field → α) (hg : ∀ i f, g (PSQL_ASSIGN i f) = h f) :
    fill fields.length (as.map fun a => (a.index, g a)) = some ((fields.map h).map some) := by
  apply fill_eq (List.length_map ..)
  · have hindex : ((fields.mapIdx PSQL_ASSIGN).map fun a => (a.index, g a)).map Prod.fst =
        List.range fields.length := by
      rw [map_mapIdx, map_mapIdx, ← mapIdx_index]
      rfl
    rw [← hindex]
    exact (has.map _).map _
  · intro w hw
    obtain ⟨a, ha, rfl⟩ := List.mem_map.mp hw
    obtain ⟨i, hi, rfl⟩ := List.mem_mapIdx.mp (has.mem_iff.mp ha)
    show (fields.map h)[i]? = some (g (PSQL_ASSIGN i fields[i]))
    rw [hg, List.getElem?_map, List.getElem?_eq_getElem hi]
    rfl

theorem filledBy_of_perm (has : as.Perm (fields.mapIdx PSQL_ASSIGN)) :
    Params.FilledBy ⟨fields.length, fields.map Field.getNetValue,
      some (fields.map Field.getSizeof), some (fields.map fun _ => 1)⟩ as where
  once := by
    have hindex : (fields.mapIdx PSQL_ASSIGN).map ParamAssign.index =
        List.range fields.length := by
      rw [map_mapIdx, ← mapIdx_index]
      rfl
    rw [← hindex]
    exact has.map _
  values := fill_assigns has ParamAssign.val Field.getNetValue fun _ _ => rfl
  lengths := ⟨_, rfl, fill_assigns has ParamAssign.len Field.getSizeof fun _ _ => rfl⟩
  formats := ⟨_, rfl, fill_assigns has ParamAssign.format (fun _ => 1) fun _ _ => rfl⟩

/-- An object has a field for each member. -/
theorem Row.length_fields (obj : Row t) : obj.fields.length = t.members.length := by
  rw [← List.length_map Field.type, obj.typed, List.length_map]

theorem filledBy_insertAssigns (obj : Row t) : obj.insertParams.FilledBy obj.insertAssigns := by
  rw [Row.insertParams, ← obj.length_fields]
  exact filledBy_of_perm (.refl _)

/-- The entry for `id` is assigned first, and is the last. -/
theorem filledBy_updateAssigns (obj : Row t) : obj.updateParams.FilledBy obj.updateAssigns := by
  have hlength : (obj.fields ++ [Field.int64 obj.id]).length = 1 + t.members.length := by
    rw [List.length_append, obj.length_fields, Nat.add_comm]
    rfl
  rw [Row.updateParams, ← hlength]
  apply filledBy_of_perm
  rw [List.mapIdx_append, Row.updateAssigns, ← obj.length_fields]
  simpa using List.perm_append_singleton _ _ |>.symm

/-- The lengths that are passed are those of the values, if these are an `int`. -/
theorem map_getSizeof (h : ∀ f ∈ fields, f.byteLength < 2147483648) :
    fields.map Field.getSizeof = fields.map fun f => (f.byteLength : ℤ) := by
  apply List.map_congr_left
  intro f hf
  cases f with
  | string s => exact castInt_of_lt (h _ hf)
  | int64 => rfl
  | int32 => rfl

/-- For every table whose names neither hold placeholders nor leave quotes or comments open, and
    every object whose texts have fewer than 2³¹ bytes. In `insert` the placeholders are `$1` to
    `$n`, and in `update` `$1` to `$n`, each after its own column, and `$(n+1)` after `id`. The
    arrays of both have an entry for each placeholder, each is assigned once and within the array,
    and they hold the value, the byte length and the binary format of the columns in order, in
    `update` with `id` as the last. -/
theorem placeholders_agree (t : Table) (obj : Row t) (ht : t.Inert)
    (hlen : ∀ f ∈ obj.fields, f.byteLength < 2147483648) :
    ((placeholders t.insertSql).map Prod.snd = List.range' 1 obj.insertParams.nParams ∧
      obj.insertParams.FilledBy obj.insertAssigns ∧ obj.insertParams = .binary obj.fields) ∧
    List.Forall₂ AssignedTo (t.numbered ++ [("id", 1 + t.members.length)])
        (placeholders t.updateSql) ∧
      (placeholders t.updateSql).map Prod.snd = List.range' 1 obj.updateParams.nParams ∧
      obj.updateParams.FilledBy obj.updateAssigns ∧
      obj.updateParams = .binary (obj.fields ++ [.int64 obj.id]) := by
  have hupdate : ∀ f ∈ obj.fields ++ [Field.int64 obj.id], f.byteLength < 2147483648 := by
    intro f hf
    rcases List.mem_append.mp hf with hf | hf
    · exact hlen f hf
    · rw [List.mem_singleton.mp hf, Field.byteLength]
      decide
  refine ⟨⟨placeholders_insertSql ht, filledBy_insertAssigns obj, ?_⟩, placeholders_updateSql ht,
    numbers_updateSql ht, filledBy_updateAssigns obj, ?_⟩
  · rw [Row.insertParams, Params.binary, map_getSizeof hlen, obj.length_fields]
  · rw [Row.updateParams, Params.binary, map_getSizeof hupdate, List.length_append,
      obj.length_fields, Nat.add_comm]
    rfl

/-- A class with a text and a number, kept in a table with this name. -/
def usersTable (name : String) : Table := ⟨name, [⟨.string, "username"⟩, ⟨.int32, "gender"⟩]⟩

def usersRow (name : String) (username : List UInt8) (gender : Int32) : Row (usersTable name) :=
  ⟨7, [.string username, .int32 gender], rfl⟩

theorem usersTable_inert {name : String} (h : Sql.Inert name) (hseq : QuotedInert name) :
    (usersTable name).Inert :=
  ⟨h, hseq, by simp [usersTable, inert_of_identifier (s := "username") rfl,
    inert_of_identifier (s := "gender") rfl]⟩

/-- A table in a schema, under a name in quotes. -/
theorem placeholders_users :
    ((placeholders (usersTable "public.\"User\"").insertSql).map Prod.snd =
        List.range' 1 (usersRow "public.\"User\"" [65] 1).insertParams.nParams ∧
      (usersRow "public.\"User\"" [65] 1).insertParams.FilledBy
        (usersRow "public.\"User\"" [65] 1).insertAssigns ∧
      (usersRow "public.\"User\"" [65] 1).insertParams =
        .binary (usersRow "public.\"User\"" [65] 1).fields) ∧
    List.Forall₂ AssignedTo [("username", 1), ("gender", 2), ("id", 3)]
        (placeholders (usersTable "public.\"User\"").updateSql) ∧
      (placeholders (usersTable "public.\"User\"").updateSql).map Prod.snd =
        List.range' 1 (usersRow "public.\"User\"" [65] 1).updateParams.nParams ∧
      (usersRow "public.\"User\"" [65] 1).updateParams.FilledBy
        (usersRow "public.\"User\"" [65] 1).updateAssigns ∧
      (usersRow "public.\"User\"" [65] 1).updateParams =
        .binary ((usersRow "public.\"User\"" [65] 1).fields ++ [.int64 7]) :=
  placeholders_agree (usersTable "public.\"User\"") (usersRow _ [65] 1)
    (usersTable_inert (by decide) (by decide)) (by simp [usersRow, Field.byteLength])

/-- A text of 2³² bytes is passed with the length zero, whatever the names. And whatever the texts,
    PostgreSQL finds one placeholder too many if the name of the table is one, and none behind a
    name of a table or a column that starts a comment, or an apostrophe that ends the quotes of
    `nextval`. -/
theorem statements_disagree :
    (¬ ∀ (t : Table) (obj : Row t), t.Inert → obj.insertParams = .binary obj.fields) ∧
      (placeholders (usersTable "$1").insertSql).map Prod.snd = [1, 1, 2] ∧
      (placeholders (usersTable "users--old").insertSql).map Prod.snd = [] ∧
      (placeholders (usersTable "\"user's\"").insertSql).map Prod.snd = [] ∧
      (placeholders (Table.updateSql ⟨"users", [⟨.int32, "gender--old"⟩]⟩)).map Prod.snd = [] := by
  refine ⟨fun h => ?_, by decide, by decide, by decide, by decide⟩
  obtain ⟨username, hlength⟩ : ∃ text : List UInt8, text.length = 4294967296 :=
    ⟨List.replicate 4294967296 65, List.length_replicate⟩
  have husers : (usersTable "users").Inert :=
    usersTable_inert (inert_of_identifier rfl) (quotedInert_of_identifier rfl)
  have hlengths : some [castInt username.length, 4] = some [(username.length : ℤ), 4] :=
    congrArg Params.lengths (h (usersTable "users") (usersRow _ username 1) husers)
  rw [hlength, Option.some.injEq, List.cons.injEq] at hlengths
  revert hlengths
  decide

end Codechiev
