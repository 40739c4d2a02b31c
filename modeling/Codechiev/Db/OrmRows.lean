import Codechiev.Db.OrmPsql
import Codechiev.Net.Internet

/-!
# Rows of a result set

`assembleVector` of a `DECLEAR_PSQL_TABLE` class builds one object for each row of a binary result
set, looking the columns up by name. Whatever bytes `getNetValue` and `getSizeof` gave for the
fields of a record, `toField` reads the record back from them (`assembleVector_shows`), provided
its texts hold no zero byte and their lengths are an `int`. How libpq finds a column is a
parameter.
-/

namespace Codechiev

attribute [ext] Row

namespace Field

/-- The bytes of the field as a statement is given them: `getSizeof()` many at `getNetValue()`. -/
def bytes (f : Field) : List UInt8 := f.getNetValue.take f.getSizeof.toNat

/-- `Field<int64_t>::toField(char*)`, on a pointer to the bytes `ptr`. Fewer than eight of them
    would be read past their end. -/
def toField64 (t : Int64) : Option (List UInt8) → Option Int64
  | none => some t
  | some ptr => if 8 ≤ ptr.length then some (NetworkToHost64 (wordAt64 ptr)).toInt64 else none

/-- `toField(char*)` of each specialization. The null pointer leaves the field alone. -/
def toField : Field → Option (List UInt8) → Option Field
  | f, none => some f
  | string _, some ptr => if 0 ∈ ptr then some (string (ptr.takeWhile (· ≠ 0))) else none
  | int64 t, some ptr => (toField64 t ptr).map int64
  | int32 _, some ptr =>
    if 4 ≤ ptr.length then some (int32 (NetworkToHost32 (wordAt ptr)).toInt32) else none

theorem type_toField {f f' : Field} {ptr : Option (List UInt8)} (h : f.toField ptr = some f') :
    f'.type = f.type := by
  cases ptr with
  | none =>
    rw [toField, Option.some.injEq] at h
    rw [h]
  | some ptr =>
    cases f with
    | string t =>
      rw [toField] at h
      split at h
      · rw [← Option.some.inj h]
        rfl
      · cases h
    | int64 t =>
      obtain ⟨t', -, rfl⟩ := Option.map_eq_some_iff.mp h
      rfl
    | int32 t =>
      rw [toField] at h
      split at h
      · rw [← Option.some.inj h]
        rfl
      · cases h

end Field

/-- A `PGresult` with binary values: the column names, and for each row the value of each
    column. -/
structure ResultSet where
  columns : List String
  rows : List (List (List UInt8))

namespace ResultSet

/-- `PQntuples`. -/
def PQntuples (res : ResultSet) : ℕ := res.rows.length

/-- The value of a column in a row. -/
def value (res : ResultSet) (row col : ℕ) : Option (List UInt8) :=
  res.rows[row]?.bind fun cells : List (List UInt8) => cells[col]?

/-- `PQgetvalue`: libpq keeps a zero byte behind each value, and answers a place outside the result
    with the null pointer. -/
def PQgetvalue (res : ResultSet) (row : ℕ) (col : ℤ) : Option (List UInt8) :=
  if col < 0 then none else (res.value row col.toNat).map fun cell => cell ++ [0]

/-- How libpq finds a column: `PQfnumber`, -1 where there is none of that name. -/
abbrev ColumnLookup := List String → String → ℤ

/-- A name that `PQfnumber` takes as it stands: not empty, and nothing in it to fold to lower case
    or to unquote. -/
def LowerName (name : String) : Prop :=
  name ≠ "" ∧ ∀ c ∈ name.toList, c.toLower = c ∧ c ≠ '"'

/-- What the code relies on: such a name is found where it stands, if it stands there only. -/
def FindsColumns (PQfnumber : ColumnLookup) : Prop :=
  ∀ (columns : List String) (name : String) (k : ℕ), LowerName name → columns.Nodup →
    columns[k]? = some name → PQfnumber columns name = k

/-- `Result::getFieldValOfRow(const char*, int)`. -/
def getFieldValOfRow (PQfnumber : ColumnLookup) (res : ResultSet) (field : String) (row : ℕ) :
    Option (List UInt8) :=
  let fnum := PQfnumber res.columns field
  if res.PQntuples > row then res.PQgetvalue row fnum else none

end ResultSet

open ResultSet

/-- `TABLE_ROW_ASSIGN` for each member and its field. -/
def assignFields (PQfnumber : ColumnLookup) (res : ResultSet) (row : ℕ) :
    List Member → List Field → Option (List Field)
  | m :: ms, f :: fs =>
    match f.toField (res.getFieldValOfRow PQfnumber m.column row) with
    | none => none
    | some f' => (assignFields PQfnumber res row ms fs).map (f' :: ·)
  | _, _ => some []

theorem typed_assignFields {PQfnumber : ColumnLookup} {res : ResultSet} {row : ℕ}
    {ms : List Member} {fs fs' : List Field} (htyped : fs.map Field.type = ms.map Member.type)
    (h : assignFields PQfnumber res row ms fs = some fs') :
    fs'.map Field.type = ms.map Member.type := by
  induction ms generalizing fs fs' with
  | nil =>
    rw [assignFields, Option.some.injEq] at h
    · rw [← h]
      rfl
    · intro _ _ _ _ hcons
      cases hcons
  | cons m ms ih =>
    cases fs with
    | nil => cases htyped
    | cons f fs =>
      rw [assignFields] at h
      split at h
      · cases h
      · rename_i f' hf
        obtain ⟨rest, hrest, rfl⟩ := Option.map_eq_some_iff.mp h
        rw [List.map_cons, List.map_cons, List.cons.injEq] at htyped ⊢
        exact ⟨(Field.type_toField hf).trans htyped.1, ih htyped.2 hrest⟩

/-- `id` and every member assigned from a row, as in `assemble` and in an iteration of
    `assembleVector`. -/
def Row.assembleFrom (PQfnumber : ColumnLookup) (res : ResultSet) (row : ℕ) {t : Table}
    (obj : Row t) : Option (Row t) :=
  match Field.toField64 obj.id (res.getFieldValOfRow PQfnumber "id" row) with
  | none => none
  | some id =>
    match h : assignFields PQfnumber res row t.members obj.fields with
    | none => none
    | some fields => some ⟨id, fields, typed_assignFields obj.typed h⟩

/-- One iteration of `assembleVector`: a new object is assigned from the row. -/
def assembleRow (PQfnumber : ColumnLookup) (res : ResultSet) (t : Table) (row : ℕ) :
    Option (Row t) :=
  (Row.new t).assembleFrom PQfnumber res row

/-- The loop of `assembleVector` over the rows from `row` on, `n` of them. -/
def assembleRows (PQfnumber : ColumnLookup) (res : ResultSet) (t : Table) (row : ℕ) :
    ℕ → Option (List (Row t))
  | 0 => some []
  | n + 1 =>
    match assembleRow PQfnumber res t row with
    | none => none
    | some clz => (assembleRows PQfnumber res t (row + 1) n).map (clz :: ·)

/-- `clazz<PSql>::assembleVector(result_type, vec_type&)`, which appends to the vector. -/
def assembleVector (PQfnumber : ColumnLookup) (res : ResultSet) {t : Table} (vec : List (Row t)) :
    Option (List (Row t)) :=
  (assembleRows PQfnumber res t 0 res.PQntuples).map (vec ++ ·)

/-- The result set holds the records: a row for each in order, and in the columns `id` and those of
    the members, in whatever order they stand, the bytes of their fields. -/
structure ResultSet.Shows {t : Table} (res : ResultSet) (objs : List (Row t)) : Prop where
  columns : res.columns.Perm ("id" :: t.members.map Member.column)
  size : res.rows.length = objs.length
  id : ∀ (row k : ℕ) (obj : Row t), objs[row]? = some obj → res.columns[k]? = some "id" →
    res.value row k = some (Field.int64 obj.id).bytes
  field : ∀ (row k i : ℕ) (obj : Row t) (m : Member) (f : Field), objs[row]? = some obj →
    t.members[i]? = some m → obj.fields[i]? = some f → res.columns[k]? = some m.column →
    res.value row k = some f.bytes

/-- The columns of the table have distinct lower-case names, none of them `id`. -/
structure Table.Named (t : Table) : Prop where
  nodup : (t.members.map Member.column).Nodup
  lower : ∀ m ∈ t.members, LowerName m.column
  not_id : ∀ m ∈ t.members, m.column ≠ "id"

/-- A text without zero bytes whose length is an `int`. -/
def Field.Plain : Field → Prop
  | string s => 0 ∉ s ∧ s.length < 2147483648
  | _ => True

/-! ## One field -/

theorem memoryOf64_length (x : UInt64) : (memoryOf64 x).length = 8 := rfl

/-- What `getNetValue` wrote, `toField` reads. -/
theorem toField64_bytes (t t' : Int64) :
    Field.toField64 t' (some ((Field.int64 t).bytes ++ [0])) = some t := by
  have hbytes : (Field.int64 t).bytes = memoryOf64 (NetworkToHost64 t.toUInt64) := rfl
  rw [Field.toField64, if_pos (by rw [List.length_append, hbytes, memoryOf64_length]; decide),
    hbytes, wordAt64_memoryOf64_append, NetworkToHost64_NetworkToHost64, Int64.toInt64_toUInt64]

theorem toField_bytes {f f' : Field} (hf : f.Plain) (htype : f'.type = f.type) :
    f'.toField (some (f.bytes ++ [0])) = some f := by
  cases f with
  | string s =>
    cases f' with
    | string s' =>
      obtain ⟨hnul, hlen⟩ := hf
      have hbytes : (Field.string s).bytes = s := by
        show (s ++ [0]).take (castInt s.length).toNat = s
        rw [castInt_of_lt hlen]
        exact List.take_left' rfl
      rw [hbytes, Field.toField, if_pos (by simp), takeWhile_terminated hnul]
    | int64 t' => cases htype
    | int32 t' => cases htype
  | int64 t =>
    cases f' with
    | string s' => cases htype
    | int64 t' => rw [Field.toField, toField64_bytes]; rfl
    | int32 t' => cases htype
  | int32 t =>
    cases f' with
    | string s' => cases htype
    | int64 t' => cases htype
    | int32 t' =>
      have hbytes : (Field.int32 t).bytes = memoryOf (HostToNetwork32 t.toUInt32) := rfl
      rw [hbytes, Field.toField, if_pos (by simp [memoryOf]), wordAt_memoryOf_append,
        NetworkToHost32_HostToNetwork32, Int32.toInt32_toUInt32]

/-! ## One row -/

variable {PQfnumber : ColumnLookup} {res : ResultSet} {t : Table} {objs : List (Row t)}

/-- The test of a name, one character after the other. -/
theorem lowerName_of_all {name : String} (hne : name ≠ "")
    (hall : name.toList.all fun c => decide (c.toLower = c ∧ c ≠ '"')) : LowerName name :=
  ⟨hne, fun c hc => of_decide_eq_true (List.all_eq_true.mp hall c hc)⟩

theorem lowerName_id : LowerName "id" := lowerName_of_all (by decide) (by decide)

theorem Table.Named.columns_nodup (ht : t.Named) :
    ("id" :: t.members.map Member.column).Nodup := by
  refine List.nodup_cons.mpr ⟨fun hid => ?_, ht.nodup⟩
  obtain ⟨m, hm, heq⟩ := List.mem_map.mp hid
  exact ht.not_id m hm heq

/-- A column of the table is found, and its value is what `PQgetvalue` points to. -/
theorem getFieldValOfRow_eq (hfn : FindsColumns PQfnumber) (ht : t.Named) (hres : res.Shows objs)
    {name : String} {row : ℕ} {cell : List UInt8} (hrow : row < objs.length)
    (hname : name ∈ "id" :: t.members.map Member.column)
    (hcell : ∀ k : ℕ, res.columns[k]? = some name → res.value row k = some cell) :
    res.getFieldValOfRow PQfnumber name row = some (cell ++ [0]) := by
  have hlower : LowerName name := by
    rcases List.mem_cons.mp hname with rfl | hmem
    · exact lowerName_id
    · obtain ⟨m, hm, rfl⟩ := List.mem_map.mp hmem
      exact ht.lower m hm
  have hnodup : res.columns.Nodup := hres.columns.nodup_iff.mpr ht.columns_nodup
  obtain ⟨k, hk⟩ := List.getElem?_of_mem (hres.columns.mem_iff.mpr hname)
  have hcol := hfn res.columns name k hlower hnodup hk
  simp only [getFieldValOfRow, PQntuples, hcol, PQgetvalue]
  rw [if_pos (by rw [hres.size]; exact hrow), if_neg (by omega), Int.toNat_natCast, hcell k hk]
  rfl

theorem assignFields_eq {row : ℕ} {ms : List Member} {fs gs : List Field}
    (htyped : gs.map Field.type = ms.map Member.type)
    (hfs : fs.map Field.type = ms.map Member.type) (hplain : ∀ f ∈ fs, f.Plain)
    (hvalue : ∀ (i : ℕ) (m : Member) (f : Field), ms[i]? = some m → fs[i]? = some f →
      res.getFieldValOfRow PQfnumber m.column row = some (f.bytes ++ [0])) :
    assignFields PQfnumber res row ms gs = some fs := by
  induction ms generalizing fs gs with
  | nil =>
    have hnil : fs = [] := List.map_eq_nil_iff.mp hfs
    rw [assignFields, hnil]
    intro _ _ _ _ hcons
    cases hcons
  | cons m ms ih =>
    obtain ⟨f, fs, rfl⟩ := List.exists_cons_of_ne_nil (l := fs) (by rintro rfl; cases hfs)
    obtain ⟨g, gs, rfl⟩ := List.exists_cons_of_ne_nil (l := gs) (by rintro rfl; cases htyped)
    rw [List.map_cons, List.map_cons, List.cons.injEq] at htyped hfs
    obtain ⟨hf, hplain⟩ := List.forall_mem_cons.mp hplain
    have hfirst := hvalue 0 m f rfl rfl
    have hrest := ih htyped.2 hfs.2 hplain fun i m' f' hm' hf' => hvalue (i + 1) m' f' hm' hf'
    rw [assignFields, hfirst, toField_bytes hf (htyped.1.trans hfs.1.symm)]
    simp only [hrest, Option.map_some]

/-- The object built for a row is the record it shows. -/
theorem assembleRow_eq (hfn : FindsColumns PQfnumber) (ht : t.Named) (hres : res.Shows objs)
    {row : ℕ} {obj : Row t} (hobj : objs[row]? = some obj)
    (hplain : ∀ f ∈ obj.fields, f.Plain) : assembleRow PQfnumber res t row = some obj := by
  have hrow : row < objs.length := (List.getElem?_eq_some_iff.mp hobj).1
  have hid := getFieldValOfRow_eq hfn ht hres hrow List.mem_cons_self
    fun k hk => hres.id row k obj hobj hk
  have hfields : assignFields PQfnumber res row t.members (Row.new t).fields = some obj.fields := by
    apply assignFields_eq (Row.new t).typed obj.typed hplain
    intro i m f hm hf
    apply getFieldValOfRow_eq hfn ht hres hrow
    · exact List.mem_cons_of_mem _ (List.mem_map_of_mem (List.mem_of_getElem? hm))
    · exact fun k hk => hres.field row k i obj m f hobj hm hf hk
  simp only [assembleRow, Row.assembleFrom]
  rw [hid, toField64_bytes]
  dsimp only
  split
  · rename_i hnone
    rw [hfields] at hnone
    cases hnone
  · rename_i fields hsome
    rw [hfields, Option.some.injEq] at hsome
    congr 1
    ext
    · rfl
    · rw [hsome]

/-! ## All rows -/

theorem assembleRows_eq (hfn : FindsColumns PQfnumber) (ht : t.Named) (hres : res.Shows objs)
    (hplain : ∀ obj ∈ objs, ∀ f ∈ obj.fields, f.Plain) {n row : ℕ}
    (hn : row + n = objs.length) : assembleRows PQfnumber res t row n = some (objs.drop row) := by
  induction n generalizing row with
  | zero =>
    rw [assembleRows, List.drop_of_length_le (by omega)]
  | succ n ih =>
    have hrow : row < objs.length := by omega
    have hobj := List.getElem?_eq_getElem hrow
    rw [assembleRows, assembleRow_eq hfn ht hres hobj (hplain _ (List.getElem_mem hrow)),
      List.drop_eq_getElem_cons hrow]
    simp only [ih (by omega : row + 1 + n = objs.length), Option.map_some]

/-- For every table whose columns have distinct lower-case names other than `id`, and every list of
    records whose texts hold no zero byte and fewer than 2³¹ bytes: from a result set that holds
    the bytes of their fields, `assembleVector` appends the records themselves, in their order. -/
theorem assembleVector_shows (PQfnumber : ColumnLookup) (res : ResultSet) (t : Table)
    (objs vec : List (Row t)) (hfn : FindsColumns PQfnumber) (ht : t.Named)
    (hplain : ∀ obj ∈ objs, ∀ f ∈ obj.fields, f.Plain) (hres : res.Shows objs) :
    assembleVector PQfnumber res vec = some (vec ++ objs) := by
  have hn : 0 + res.PQntuples = objs.length := by
    rw [zero_add]
    exact hres.size
  rw [assembleVector, assembleRows_eq hfn ht hres hplain hn]
  rfl

/-! ## The result set of some records -/

/-- What a `SELECT *` of the records returns, `id` in the first column. -/
def ResultSet.ofRecords {t : Table} (objs : List (Row t)) : ResultSet where
  columns := "id" :: t.members.map Member.column
  rows := objs.map fun obj => (Field.int64 obj.id).bytes :: obj.fields.map Field.bytes

theorem shows_ofRecords (ht : t.Named) (objs : List (Row t)) : (ofRecords objs).Shows objs := by
  have hnodup := ht.columns_nodup
  have hvalue : ∀ (row k : ℕ) (obj : Row t), objs[row]? = some obj →
      (ofRecords objs).value row k =
        ((Field.int64 obj.id).bytes :: obj.fields.map Field.bytes)[k]? := by
    intro row k obj hobj
    simp [ResultSet.value, ofRecords, List.getElem?_map, hobj]
  refine ⟨List.Perm.refl _, List.length_map .., ?_, ?_⟩
  · intro row k obj hobj hk
    -- the columns are different ones, so `id` stands in the first
    obtain rfl : k = 0 := by
      apply (List.getElem?_inj (List.getElem?_eq_some_iff.mp hk).1 hnodup).mp
      rw [hk]
      rfl
    rw [hvalue row 0 obj hobj]
    rfl
  · intro row k i obj m f hobj hm hf hk
    obtain rfl : k = i + 1 := by
      apply (List.getElem?_inj (List.getElem?_eq_some_iff.mp hk).1 hnodup).mp
      rw [hk]
      show _ = (t.members.map Member.column)[i]?
      rw [List.getElem?_map, hm]
      rfl
    rw [hvalue row (i + 1) obj hobj, List.getElem?_cons_succ, List.getElem?_map, hf]
    rfl

/-- The place of the first column of that name. -/
def firstColumn : ColumnLookup := fun columns name =>
  if name ∈ columns then columns.idxOf name else -1

theorem findsColumns_firstColumn : FindsColumns firstColumn := by
  intro columns name k _ hnodup hk
  obtain ⟨hlt, rfl⟩ := List.getElem?_eq_some_iff.mp hk
  rw [firstColumn, if_pos (List.getElem_mem hlt), hnodup.idxOf_getElem k hlt]

/-- A class with one text. -/
def nameTable : Table := ⟨"names", [⟨.string, "name"⟩]⟩

theorem nameTable_named : nameTable.Named := by
  refine ⟨by decide, ?_, by decide⟩
  intro m hm
  rw [List.mem_singleton.mp hm]
  exact lowerName_of_all (by decide) (by decide)

def nameRow (id : Int64) (name : List UInt8) : Row nameTable := ⟨id, [.string name], rfl⟩

/-- A text whose `getSizeof()` wraps to zero comes back empty. -/
theorem assembleVector_drops {name : List UInt8} (hlen : castInt name.length = 0) :
    assembleVector firstColumn (ofRecords [nameRow 7 name]) [] = some [nameRow 7 []] := by
  have hsame : ofRecords [nameRow 7 name] = ofRecords [nameRow 7 []] := by
    have hbytes : (Field.string name).bytes = [] := by
      rw [Field.bytes, Field.getSizeof, hlen]
      rfl
    simp only [ofRecords, nameRow, List.map_cons, List.map_nil, hbytes]
    rfl
  have hplain : ∀ obj ∈ [nameRow 7 []], ∀ f ∈ obj.fields, f.Plain := by
    intro obj hobj f hf
    rw [List.mem_singleton.mp hobj] at hf
    rw [List.mem_singleton.mp hf]
    exact ⟨List.not_mem_nil, by decide⟩
  have hrows := assembleRows_eq findsColumns_firstColumn nameTable_named
    (shows_ofRecords nameTable_named _) hplain (rfl : 0 + 1 = [nameRow 7 []].length)
  rw [hsame, assembleVector]
  show (assembleRows firstColumn (ofRecords [nameRow 7 []]) nameTable 0 1).map _ = _
  rw [hrows]
  rfl

/-- A text of 2³² bytes. -/
theorem assembleVector_huge :
    ¬ ∀ (PQfnumber : ColumnLookup) (res : ResultSet) (t : Table) (objs vec : List (Row t)),
      FindsColumns PQfnumber → t.Named →
      (∀ obj ∈ objs, ∀ s, Field.string s ∈ obj.fields → 0 ∉ s) → res.Shows objs →
      assembleVector PQfnumber res vec = some (vec ++ objs) := by
  intro h
  obtain ⟨name, hname, hnul⟩ :
      ∃ name : List UInt8, name.length = 4294967296 ∧ 0 ∉ name := by
    refine ⟨List.replicate 4294967296 65, List.length_replicate, fun hmem => ?_⟩
    exact absurd (List.eq_of_mem_replicate hmem) (by decide)
  have hlen : castInt name.length = 0 := by
    rw [hname]
    decide
  have hall := h firstColumn (ofRecords [nameRow 7 name]) nameTable [nameRow 7 name] []
    findsColumns_firstColumn nameTable_named ?_ (shows_ofRecords nameTable_named _)
  · rw [assembleVector_drops hlen, List.nil_append, Option.some.injEq, List.singleton_inj] at hall
    have hfields := congrArg Row.fields hall
    simp only [nameRow, List.singleton_inj, Field.string.injEq] at hfields
    rw [← hfields] at hname
    cases hname
  · intro obj hobj s hs
    rw [List.mem_singleton.mp hobj] at hs
    rw [Field.string.inj (List.mem_singleton.mp hs)]
    exact hnul

/-- A class with a member of each type. -/
def mixedTable : Table := ⟨"mixed", [⟨.int32, "age"⟩, ⟨.string, "name"⟩, ⟨.int64, "balance"⟩]⟩

theorem mixedTable_named : mixedTable.Named := by
  refine ⟨by decide, ?_, by decide⟩
  intro m hm
  simp only [mixedTable, List.mem_cons, List.not_mem_nil, or_false] at hm
  rcases hm with rfl | rfl | rfl <;>
    exact lowerName_of_all (by decide) (by decide)

def mixedRows : List (Row mixedTable) :=
  [⟨1, [.int32 (-7), .string [65], .int64 (-1)], rfl⟩,
    ⟨-2, [.int32 3, .string [], .int64 258], rfl⟩]

theorem assembleVector_mixed :
    assembleVector firstColumn (ofRecords mixedRows) [] = some ([] ++ mixedRows) := by
  refine assembleVector_shows firstColumn (ofRecords mixedRows) mixedTable mixedRows []
    findsColumns_firstColumn mixedTable_named ?_ (shows_ofRecords mixedTable_named _)
  simp [mixedRows, Field.Plain]

end Codechiev
