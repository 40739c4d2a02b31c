import Codechiev.Db.OrmRows
import Mathlib.Data.List.Forall2

/-!
# What `toField` reads of a cell

`getFieldValOfRow` hands `toField` a bare pointer. A number is read at the width of its C++ type,
whatever the cell holds, and a text up to the first zero byte. An SQL null is a pointer to one zero
byte, so a null in a number column is read beyond its end (`assemble_exact_iff`).

How libpq finds a column is a parameter, about which nothing is assumed.
-/

namespace Codechiev

open ResultSet

namespace ResultSet

/-- A result whose cells are byte strings or null. For a null `PQgetvalue` and `PQgetlength` answer
    as for an empty one. -/
def ofCells (columns : List String) (rows : List (List (Option (List UInt8)))) : ResultSet where
  columns := columns
  rows := rows.map fun cells => cells.map fun cell => cell.getD []

/-- The `PQgetlength` bytes of the cell that a column is read from, if there is one. -/
def cell (PQfnumber : ColumnLookup) (res : ResultSet) (field : String) (row : ℕ) :
    Option (List UInt8) :=
  let fnum := PQfnumber res.columns field
  if fnum < 0 then none else res.value row fnum.toNat

variable {PQfnumber : ColumnLookup} {res : ResultSet} {field : String} {row : ℕ}

/-- The pointer is to the cell and the zero byte behind it. -/
theorem getFieldValOfRow_eq_cell : res.getFieldValOfRow PQfnumber field row =
    (res.cell PQfnumber field row).map fun bytes => bytes ++ [0] := by
  simp only [getFieldValOfRow, PQgetvalue, cell]
  split
  · split <;> rfl
  · rename_i hrow
    have hnone : res.rows[row]? = none := List.getElem?_eq_none (not_lt.mp hrow)
    split
    · rfl
    · rw [ResultSet.value, hnone]
      rfl

end ResultSet

/-- The widths that `toField` relies on. The byte that libpq adds counts towards them. -/
def FieldType.Suits : FieldType → List UInt8 → Prop
  | .string, bytes => 0 ∉ bytes
  | .int64, bytes => 7 ≤ bytes.length
  | .int32, bytes => 3 ≤ bytes.length

namespace Field

/-- A text holds the bytes of the cell. -/
def Holds : Field → Option (List UInt8) → Prop
  | string t, some bytes => t = bytes
  | _, _ => True

variable {f : Field} {cell : Option (List UInt8)}

theorem takeWhile_terminated_iff {bytes : List UInt8} :
    (bytes ++ [0]).takeWhile (· ≠ 0) = bytes ↔ 0 ∉ bytes := by
  refine ⟨fun h hmem => ?_, takeWhile_terminated⟩
  have hall := List.mem_takeWhile_imp (h.symm ▸ hmem)
  simp at hall

/-- `toField` stays within the cell and takes all of a text if and only if the cell suits the
    type. -/
theorem toField_holds_iff :
    (∃ f', f.toField (cell.map fun bytes => bytes ++ [0]) = some f' ∧ f'.Holds cell) ↔
      ∀ bytes, cell = some bytes → f.type.Suits bytes := by
  cases cell with
  | none => exact iff_of_true ⟨f, by cases f <;> exact ⟨rfl, trivial⟩⟩ (by simp)
  | some bytes =>
    cases f with
    | string t =>
      have hread : (string t).toField (some (bytes ++ [0])) =
          some (string ((bytes ++ [0]).takeWhile (· ≠ 0))) := by
        rw [toField, if_pos (by simp)]
      rw [Option.map_some, hread]
      simp only [Option.some.injEq, exists_eq_left', forall_eq', Holds, type, FieldType.Suits]
      exact takeWhile_terminated_iff
    | int64 t => simp [toField, toField64, Holds, FieldType.Suits, type]
    | int32 t => simp [toField, Holds, FieldType.Suits, type]

/-- The same of the field `id`. -/
theorem toField64_iff {t : Int64} :
    (∃ t', toField64 t (cell.map fun bytes => bytes ++ [0]) = some t') ↔
      ∀ bytes, cell = some bytes → FieldType.int64.Suits bytes := by
  cases cell with
  | none => exact iff_of_true ⟨t, rfl⟩ (by simp)
  | some bytes => simp [toField64, FieldType.Suits]

end Field

namespace Row

variable {t : Table}

/-- `clazz<PSql>::assemble(result_type)`. -/
def assemble (PQfnumber : ColumnLookup) (res : ResultSet) (obj : Row t) : Option (Row t) :=
  obj.assembleFrom PQfnumber res 0

/-- Each text of the object holds the bytes of the cell of its column. -/
def Holds (PQfnumber : ColumnLookup) (res : ResultSet) (row : ℕ) (obj : Row t) : Prop :=
  List.Forall₂ (fun m f => f.Holds (res.cell PQfnumber m.column row)) t.members obj.fields

end Row

/-- The cells of a row that the class reads suit the types of their columns. -/
def Table.Suits (PQfnumber : ColumnLookup) (res : ResultSet) (t : Table) (row : ℕ) : Prop :=
  (∀ bytes, res.cell PQfnumber "id" row = some bytes → FieldType.int64.Suits bytes) ∧
    ∀ m ∈ t.members, ∀ bytes, res.cell PQfnumber m.column row = some bytes → m.type.Suits bytes

variable {PQfnumber : ColumnLookup} {res : ResultSet} {t : Table} {row : ℕ}

/-- A result is built from its head and its tail, and so is what is said about it. -/
theorem exists_forall₂_cons_iff {α β : Type*} {R : α → β → Prop} {a : α} {as : List α}
    (head : Option β) (tail : Option (List β)) :
    (∃ bs, (head.bind fun b => tail.map (b :: ·)) = some bs ∧ List.Forall₂ R (a :: as) bs) ↔
      (∃ b, head = some b ∧ R a b) ∧ ∃ bs, tail = some bs ∧ List.Forall₂ R as bs := by
  cases head with
  | none => simp
  | some b =>
    constructor
    · rintro ⟨bs, hbs, hall⟩
      obtain ⟨rest, hrest, rfl⟩ := Option.map_eq_some_iff.mp hbs
      obtain ⟨hhead, htail⟩ := List.forall₂_cons.mp hall
      exact ⟨⟨b, rfl, hhead⟩, rest, hrest, htail⟩
    · rintro ⟨⟨b', hb', hhead⟩, rest, hrest, htail⟩
      obtain rfl := Option.some.inj hb'
      exact ⟨b :: rest, Option.map_eq_some_iff.mpr ⟨rest, hrest, rfl⟩, .cons hhead htail⟩

/-! ## One row -/

theorem assignFields_holds_iff {ms : List Member} {fs : List Field}
    (htyped : fs.map Field.type = ms.map Member.type) :
    (∃ fs', assignFields PQfnumber res row ms fs = some fs' ∧
        List.Forall₂ (fun m f => f.Holds (res.cell PQfnumber m.column row)) ms fs') ↔
      ∀ m ∈ ms, ∀ bytes, res.cell PQfnumber m.column row = some bytes → m.type.Suits bytes := by
  induction ms generalizing fs with
  | nil =>
    refine iff_of_true ⟨[], ?_, .nil⟩ fun m hm => absurd hm List.not_mem_nil
    rw [assignFields]
    intro _ _ _ _ hcons
    cases hcons
  | cons m ms ih =>
    obtain ⟨f, fs, rfl⟩ := List.exists_cons_of_ne_nil (l := fs) (by rintro rfl; cases htyped)
    rw [List.map_cons, List.map_cons, List.cons.injEq] at htyped
    have hfirst := @Field.toField_holds_iff f (res.cell PQfnumber m.column row)
    rw [← getFieldValOfRow_eq_cell, htyped.1] at hfirst
    have hcons : assignFields PQfnumber res row (m :: ms) (f :: fs) =
        (f.toField (res.getFieldValOfRow PQfnumber m.column row)).bind fun f' =>
          (assignFields PQfnumber res row ms fs).map (f' :: ·) := by
      rw [assignFields]
      cases f.toField (res.getFieldValOfRow PQfnumber m.column row) <;> rfl
    rw [List.forall_mem_cons, ← hfirst, ← ih htyped.2, hcons]
    exact exists_forall₂_cons_iff _ _

theorem assembleFrom_holds_iff {obj : Row t} :
    (∃ obj', obj.assembleFrom PQfnumber res row = some obj' ∧ obj'.Holds PQfnumber res row) ↔
      t.Suits PQfnumber res row := by
  rw [Table.Suits, ← Field.toField64_iff (t := obj.id), ← assignFields_holds_iff obj.typed,
    ← getFieldValOfRow_eq_cell]
  constructor
  · rintro ⟨obj', hassemble, hholds⟩
    simp only [Row.assembleFrom] at hassemble
    split at hassemble
    · cases hassemble
    · rename_i id hid
      split at hassemble
      · cases hassemble
      · rename_i fields hfields
        obtain rfl := Option.some.inj hassemble
        exact ⟨⟨id, hid⟩, fields, hfields, hholds⟩
  · rintro ⟨⟨id, hid⟩, fields, hfields, hholds⟩
    refine ⟨⟨id, fields, typed_assignFields obj.typed hfields⟩, ?_, hholds⟩
    simp only [Row.assembleFrom]
    rw [hid]
    dsimp only
    split
    · rename_i hnone
      cases hnone.symm.trans hfields
    · rename_i fields' hsome
      obtain rfl := Option.some.inj (hsome.symm.trans hfields)
      rfl

/-! ## All rows -/

theorem assembleRows_holds_iff {n : ℕ} :
    (∃ objs, assembleRows PQfnumber res t row n = some objs ∧
        List.Forall₂ (fun i obj => obj.Holds PQfnumber res i) (List.range' row n) objs) ↔
      ∀ i ∈ List.range' row n, t.Suits PQfnumber res i := by
  induction n generalizing row with
  | zero => exact iff_of_true ⟨[], rfl, .nil⟩ fun i hi => absurd hi List.not_mem_nil
  | succ n ih =>
    have hcons : assembleRows PQfnumber res t row (n + 1) =
        ((Row.new t).assembleFrom PQfnumber res row).bind fun clz =>
          (assembleRows PQfnumber res t (row + 1) n).map (clz :: ·) := by
      rw [assembleRows, assembleRow]
      cases (Row.new t).assembleFrom PQfnumber res row <;> rfl
    rw [List.range'_succ, List.forall_mem_cons, ← @assembleFrom_holds_iff _ _ _ _ (Row.new t), ← ih,
      hcons]
    exact exists_forall₂_cons_iff _ _

theorem assembleVector_holds_iff {vec : List (Row t)} :
    (∃ objs, assembleVector PQfnumber res vec = some (vec ++ objs) ∧
        List.Forall₂ (fun i obj => obj.Holds PQfnumber res i) (List.range res.PQntuples) objs) ↔
      ∀ row < res.PQntuples, t.Suits PQfnumber res row := by
  have hrows := @assembleRows_holds_iff PQfnumber res t 0 res.PQntuples
  simp only [← List.range_eq_range', List.mem_range] at hrows
  rw [← hrows]
  simp only [assembleVector, Option.map_eq_some_iff, List.append_cancel_left_eq,
    exists_eq_right]

/-- For every table, however libpq finds its columns, and every result set of byte strings and
    nulls: `assemble` stays within the cells and their zero bytes and gives each text column the
    bytes of its cell if and only if the cells of the first row suit the types of their columns,
    and `assembleVector` does so if and only if those of every row do. -/
theorem assemble_exact_iff (PQfnumber : ColumnLookup) (t : Table) (columns : List String)
    (rows : List (List (Option (List UInt8)))) (obj : Row t) (vec : List (Row t)) :
    ((∃ obj', obj.assemble PQfnumber (ofCells columns rows) = some obj' ∧
        obj'.Holds PQfnumber (ofCells columns rows) 0) ↔
      t.Suits PQfnumber (ofCells columns rows) 0) ∧
    ((∃ objs, assembleVector PQfnumber (ofCells columns rows) vec = some (vec ++ objs) ∧
        List.Forall₂ (fun row obj => obj.Holds PQfnumber (ofCells columns rows) row)
          (List.range rows.length) objs) ↔
      ∀ row < rows.length, t.Suits PQfnumber (ofCells columns rows) row) := by
  have hsize : (ofCells columns rows).PQntuples = rows.length := List.length_map ..
  rw [← hsize]
  exact ⟨assembleFrom_holds_iff, assembleVector_holds_iff⟩

/-- A class with one number. -/
def genderTable : Table := ⟨"users", [⟨.int32, "gender"⟩]⟩

/-- A null in the number's column is four bytes read where there is one. -/
theorem assemble_reads_null :
    ¬ ∀ (PQfnumber : ColumnLookup) (t : Table) (columns : List String)
      (rows : List (List (Option (List UInt8)))) (obj : Row t),
      ∃ obj', obj.assemble PQfnumber (ofCells columns rows) = some obj' ∧
        obj'.Holds PQfnumber (ofCells columns rows) 0 := by
  intro h
  have hsuits := assembleFrom_holds_iff.mp (h firstColumn genderTable ["id", "gender"]
    [[some [0, 0, 0, 0, 0, 0, 0, 1], none]] (Row.new genderTable))
  have hwidth : 3 ≤ ([] : List UInt8).length := hsuits.2 _ List.mem_cons_self [] rfl
  cases hwidth

end Codechiev
