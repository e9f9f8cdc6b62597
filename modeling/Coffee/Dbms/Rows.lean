import Coffee.Dbms.Column
import Coffee.Dbms.Cursor

/-! # Rows of SQLite

A statement binds its input columns to the parameters of a `sqlite3_stmt`, and each fetch of a query
sets its output columns from the cells of one row.
-/

namespace Coffee.Dbms

open Coffee.Basis Coffee.Library Datatype
open SqliteResult (SqliteCursor SQLITE_OK)

namespace Sqlite3

/-- A `REAL` is kept by the bits of the `float` that it was. -/
inductive Cell where
  | null
  | integer (i : Int64)
  | real (bits : UInt32)
  | text (str : Bytes)
  | blob (value : Bytes)
deriving DecidableEq, Repr

end Sqlite3

open Sqlite3 (Cell)

/-- What a bind of a cell returns, and what a cell is read as. A cell of another storage class is
converted by the library. -/
structure LibSqlite where
  sqlite3_bind : Cell → Int
  sqlite3_column_int : Cell → Int32
  sqlite3_column_int64 : Cell → Int64
  sqlite3_column_double : Cell → UInt32
  sqlite3_column_text : Cell → Bytes
  sqlite3_column_blob : Cell → Bytes
  column_int : ∀ i, sqlite3_column_int (.integer i) = i.toInt32
  column_int64 : ∀ i, sqlite3_column_int64 (.integer i) = i
  column_double : ∀ bits, sqlite3_column_double (.real bits) = bits
  column_text : ∀ str, sqlite3_column_text (.text str) = str
  column_blob : ∀ value, sqlite3_column_blob (.blob value) = value

/-- The library with no conversions. -/
def LibSqlite.strict : LibSqlite where
  sqlite3_bind _ := SQLITE_OK
  sqlite3_column_int | .integer i => i.toInt32 | _ => 0
  sqlite3_column_int64 | .integer i => i | _ => 0
  sqlite3_column_double | .real bits => bits | _ => 0
  sqlite3_column_text | .text str => str | _ => []
  sqlite3_column_blob | .blob value => value | _ => []
  column_int _ := rfl
  column_int64 _ := rfl
  column_double _ := rfl
  column_text _ := rfl
  column_blob _ := rfl

inductive EncodeException where
  | RuntimeException (ex : RuntimeException)
  | DatabaseException (rc : Int)
deriving DecidableEq, Repr

namespace Datatype.Column

def getType : Column → Option Datatype
  | of column => some column.getType
  | Float _ => none

def m_constraint : Column → Constraint
  | of column => column.m_constraint
  | Float column => column.m_constraint

def m_maxSize : Column → Nat
  | of column => column.m_maxSize
  | Float _ => 4

/-- What a column shows. -/
def contents (column : Column) : Option (Value ⊕ UInt32) :=
  if column.m_isNull then none else some column.stored

end Datatype.Column

section Binders

variable (lib : LibSqlite) (zone : Zone)

/-- A `NaN` is stored as NULL. -/
def sqlite3_bind_double (bits : UInt32) : Cell := if Datatype.Float.isNaN bits then .null else .real bits

/-- The size is an `int`; behind a negative one nothing is defined, and nothing is taken here. -/
def sqlite3_bind_blob (value : Bytes) (n : Int32) : Cell := .blob (value.take n.toNatClampNeg)

/-- The cell of a column with a value. There is no case for `MultiString`, and the parameter stays as it
is. -/
def SqliteInputBinder.cell (data : Column) (bound : Cell) : Except RuntimeException Cell :=
  match data with
  | .Float column => .ok (sqlite3_bind_double column.m_value)
  | .of column => match column.value with
    | .Integer i => .ok (.integer i.toInt64)
    | .String str => .ok (.text str)
    | .ShortBlock value | .LongBlock value =>
      .ok (sqlite3_bind_blob value (Int32.ofNat value.length))
    | .Date date => (encodeDate zone date).map .text
    | .TimeStamp timeStamp => .ok (.integer timeStamp)
    | .MultiString _ => .ok bound

def SqliteInputBinder.do_encode (data : Column) (bound : Cell) : Except EncodeException Cell :=
  match if data.m_isNull then .ok .null else cell zone data bound with
  | .error ex => .error (.RuntimeException ex)
  | .ok cell =>
    if lib.sqlite3_bind cell ≠ SQLITE_OK then .error (.DatabaseException (lib.sqlite3_bind cell))
    else .ok cell

/-- Every execution prepares the statement again, and its parameters are NULL in front of the binds. -/
def Statement.encode (inputs : List Column) : Except EncodeException (List Cell) :=
  inputs.mapM fun data => SqliteInputBinder.do_encode lib zone data .null

def SqliteOutputBinder.do_decode (data : Column) (cell : Cell) : Except SetException Unit × Column :=
  if cell = .null then data.set .isNull
  else match data with
    | .Float _ => data.set (.setFloat (lib.sqlite3_column_double cell))
    | .of column => match column.value with
      | .Integer _ => data.set (.setInteger (lib.sqlite3_column_int cell))
      | .String _ => data.set (.setString (some (.ofBytes (lib.sqlite3_column_text cell))))
      | .ShortBlock _ | .LongBlock _ => data.set (.setBlock (lib.sqlite3_column_blob cell))
      | .Date _ =>
        data.set (.setDateText
          (Date.parse zone (cStr (lib.sqlite3_column_text cell)) (some Date.DefaultFormat)))
      | .TimeStamp _ => data.set (.setDate (lib.sqlite3_column_int64 cell))
      | .MultiString _ => (.ok (), data)

/-- The columns behind one whose setter throws are left as they are. -/
def Statement.decode : List Column → List Cell → Except SetException Unit × List Column
  | data :: outputs, cell :: cells =>
    match SqliteOutputBinder.do_decode lib zone data cell with
    | (.error ex, data) => (.error ex, data :: outputs)
    | (.ok (), data) =>
      let (result, outputs) := Statement.decode outputs cells
      (result, data :: outputs)
  | outputs, _ => (.ok (), outputs)

end Binders

/-- A query and its output columns. -/
structure Query where
  cursor : SqliteCursor
  m_outputBinds : List Column

namespace Query

variable (lib : LibSqlite) (zone : Zone) (rows : List (List Cell)) (query : Query)

/-- The execution finds the rows of the result. -/
def execute : Query := { query with cursor := (query.cursor.do_execute rows.length).2 }

/-- The row that the library is at. -/
def row (cursor : SqliteCursor) : List Cell := (cursor.current.bind (rows[·]?)).getD []

def fetch : Except SetException Bool × Query :=
  let (fetched, cursor) := query.cursor.do_fetch
  if fetched then
    let (result, m_outputBinds) := Statement.decode lib zone query.m_outputBinds (row rows cursor)
    (result.map fun _ => true, ⟨cursor, m_outputBinds⟩)
  else (.ok false, { query with cursor })

/-- So many fetches, whatever they return or throw. -/
def fetches : Nat → Query
  | 0 => query
  | m + 1 => ((fetches m).fetch lib zone rows).2

def shows : List (Option (Value ⊕ UInt32)) := query.m_outputBinds.map Column.contents

end Query

namespace Datatype.Column

/-- The output column shows what the input column showed, once it has been stored and fetched. -/
def Returns (zone : Zone) (input output : Column) : Prop :=
  match input.contents with
  | none => output.m_constraint = .CanBeNull
  | some (.inr bits) => Float.isNaN bits = false
  | some (.inl value) => match value with
    | .Integer _ | .LongBlock _ | .TimeStamp _ => True
    | .String str => str.val.length ≤ output.m_maxSize
    | .ShortBlock value => value.length ≤ output.m_maxSize
    | .Date date => Date.Readable zone date
    | .MultiString _ => False

/-- A block whose size is an `int`. -/
def Sized (input : Column) : Prop :=
  ∀ value, input.contents = some (.inl (.ShortBlock value)) ∨
    input.contents = some (.inl (.LongBlock value)) → value.length < 2 ^ 31

/-- What no setter changes. -/
def shape (column : Column) : Option Datatype × Constraint × Nat :=
  (column.getType, column.m_constraint, column.m_maxSize)

theorem shape_isNull (column : Abstract) : (of column.isNull.2).shape = (of column).shape := by
  unfold Abstract.isNull
  split <;> rfl

theorem getType_clear (column : Abstract) : column.clear.getType = column.getType := by
  simp only [Abstract.clear, Abstract.getType]
  cases column.value <;> rfl

theorem shape_clear (column : Abstract) : (of column.clear).shape = (of column).shape := by
  simp only [shape, getType, getType_clear]
  rfl

theorem shape_store {column : Abstract} {value : Value} (h : value.getType = column.getType) :
    (of (column.store value)).shape = (of column).shape := by
  simp only [shape, getType, ← h]
  rfl

theorem shape_call (column : Abstract) (call : Call) :
    (of (column.call call)).shape = (of column).shape := by
  have htype : column.getType = column.value.getType := rfl
  cases call with
  | isNull => exact shape_isNull column
  | clear => exact shape_clear column
  | setInteger i =>
    simp only [Abstract.call]
    cases hvalue : column.value with
    | Integer => exact shape_store (by rw [htype, hvalue]; rfl)
    | String | ShortBlock | LongBlock | Date | TimeStamp | MultiString => rfl
  | setString str =>
    simp only [Abstract.call]
    cases hvalue : column.value with
    | String =>
      cases str with
      | none =>
        dsimp only
        split
        · exact (shape_clear _).trans (shape_isNull column)
        · rfl
      | some str =>
        dsimp only
        split
        · rfl
        · exact shape_store (by rw [htype, hvalue]; rfl)
    | Integer | ShortBlock | LongBlock | Date | TimeStamp | MultiString => rfl
  | addValue value =>
    simp only [Abstract.call]
    cases hvalue : column.value with
    | MultiString => exact shape_store (by rw [htype, hvalue]; rfl)
    | Integer | String | ShortBlock | LongBlock | Date | TimeStamp => rfl
  | setDate value =>
    simp only [Abstract.call]
    cases hvalue : column.value with
    | Date | TimeStamp => exact shape_store (by rw [htype, hvalue]; rfl)
    | Integer | String | ShortBlock | LongBlock | MultiString => rfl
  | setDateFrom parsed =>
    simp only [Abstract.call]
    cases hvalue : column.value with
    | Date | TimeStamp =>
      cases parsed with
      | none => exact shape_clear column
      | some value =>
        exact (shape_store (by rw [getType_clear, htype, hvalue]; rfl)).trans (shape_clear column)
    | Integer | String | ShortBlock | LongBlock | MultiString => rfl
  | setBlock value =>
    simp only [Abstract.call]
    cases hvalue : column.value with
    | ShortBlock =>
      dsimp only
      split
      · rfl
      · exact shape_store (by rw [htype, hvalue]; rfl)
    | LongBlock => exact shape_store (by rw [htype, hvalue]; rfl)
    | Integer | String | Date | TimeStamp | MultiString => rfl

theorem shape_set (column : Column) (setter : Setter) : (column.set setter).2.shape = column.shape := by
  cases column with
  | of column =>
    simp only [set, Abstract.set_snd]
    cases setter.toCall with
    | none => rfl
    | some call => exact shape_call column call
  | Float column =>
    simp only [set]
    cases setter with
    | isNull =>
      simp only [Float.set, Float.setNull]
      split <;> rfl
    | clear | setInteger | setFloat | setString | setBlock | setDate | setDateText | addValue => rfl

theorem returns_congr {zone : Zone} {input output other : Column} (h : output.shape = other.shape) :
    Returns zone input output ↔ Returns zone input other := by
  have hconstraint : output.m_constraint = other.m_constraint := congrArg (·.2.1) h
  have hmaxSize : output.m_maxSize = other.m_maxSize := congrArg (·.2.2) h
  unfold Returns
  rw [hconstraint, hmaxSize]

theorem forall₂_returns_congr {zone : Zone} {inputs outputs others : List Column}
    (h : outputs.map shape = others.map shape) :
    List.Forall₂ (Returns zone) inputs outputs ↔ List.Forall₂ (Returns zone) inputs others := by
  induction inputs generalizing outputs others with
  | nil =>
    cases outputs <;> cases others <;> simp at h ⊢
  | cons input inputs ih =>
    cases outputs with
    | nil =>
      obtain rfl := List.map_eq_nil_iff.mp h.symm
      rfl
    | cons output outputs =>
      cases others with
      | nil => cases h
      | cons other others =>
        obtain ⟨hshape, hshapes⟩ := List.cons.inj h
        rw [List.forall₂_cons, List.forall₂_cons, returns_congr hshape, ih hshapes]

end Datatype.Column

open Datatype.Column

variable {lib : LibSqlite} {zone : Zone}

theorem SqliteOutputBinder.shape_do_decode (data : Column) (cell : Cell) :
    (do_decode lib zone data cell).2.shape = data.shape := by
  unfold do_decode
  split
  · exact shape_set _ _
  · split
    · exact shape_set _ _
    · split <;> first | exact shape_set _ _ | rfl

theorem Statement.shape_decode (outputs : List Column) (cells : List Cell) :
    (Statement.decode lib zone outputs cells).2.map shape = outputs.map shape := by
  induction outputs generalizing cells with
  | nil => cases cells <;> rfl
  | cons data outputs ih =>
    cases cells with
    | nil => rfl
    | cons cell cells =>
      have hdata := @SqliteOutputBinder.shape_do_decode lib zone data cell
      rw [Statement.decode]
      split
      · next ex after heq =>
        rw [heq] at hdata
        exact congrArg (· :: _) hdata
      · next after heq =>
        rw [heq] at hdata
        exact congrArg₂ List.cons hdata (ih cells)

/-! ## One column -/

theorem SqliteInputBinder.do_encode_eq_ok {data : Column} {bound cell : Cell}
    (h : do_encode lib zone data bound = .ok cell) :
    data.m_isNull = true ∧ cell = .null ∨
      data.m_isNull = false ∧ SqliteInputBinder.cell zone data bound = .ok cell := by
  unfold do_encode at h
  cases hnull : data.m_isNull with
  | true =>
    simp only [hnull, if_true] at h
    split at h
    · cases h
    · cases h
      exact .inl ⟨rfl, rfl⟩
  | false =>
    simp only [hnull, Bool.false_eq_true, if_false] at h
    split at h
    · cases h
    · next other hcell =>
      split at h
      · cases h
      · cases h
        exact .inr ⟨rfl, hcell⟩

theorem Datatype.Column.set_isNull_spec (column : Column) :
    ((column.set .isNull).1 = .ok () ↔ column.m_constraint = .CanBeNull) ∧
      ((column.set .isNull).1 = .ok () → (column.set .isNull).2.contents = none) := by
  cases column with
  | of column =>
    simp only [set, Abstract.set, Abstract.setNull, Abstract.isNull]
    cases hconstraint : column.m_constraint <;>
      simp [Column.m_constraint, hconstraint, contents, m_isNull]
  | Float column =>
    simp only [set, Float.set, Float.setNull]
    cases hconstraint : column.m_constraint <;>
      simp [Column.m_constraint, hconstraint, contents, m_isNull]

theorem sqlite3_bind_blob_sized {value : Bytes} (h : value.length < 2 ^ 31) :
    sqlite3_bind_blob value (Int32.ofNat value.length) = .blob value := by
  rw [sqlite3_bind_blob, Int32.toNatClampNeg_ofNat_of_lt h, List.take_length]

namespace SqliteOutputBinder

theorem do_decode_null (output : Column) :
    do_decode lib zone output .null = output.set .isNull := by
  unfold do_decode
  rw [if_pos rfl]

theorem returns_null_iff {input output : Column} (hnull : input.m_isNull = true) :
    ((do_decode lib zone output .null).1 = .ok () ∧
      (do_decode lib zone output .null).2.contents = input.contents) ↔ input.Returns zone output := by
  have hcontents : input.contents = none := by simp [contents, hnull]
  obtain ⟨hok, hshows⟩ := output.set_isNull_spec
  rw [Returns, hcontents, do_decode_null, ← hok]
  exact and_iff_left_of_imp hshows

/-- What is stored as NULL does not come back as a value. -/
theorem not_returns_null {output : Column} {value : Value ⊕ UInt32} :
    ¬ ((do_decode lib zone output .null).1 = .ok () ∧
      (do_decode lib zone output .null).2.contents = some value) := by
  rintro ⟨hok, hshows⟩
  rw [do_decode_null] at hok hshows
  rw [output.set_isNull_spec.2 hok] at hshows
  cases hshows

theorem returns_float_iff {input : Datatype.Float} {output : Column} {cell : Cell}
    (hvalue : input.m_isNull = false) (htype : output.getType = none)
    (hcell : sqlite3_bind_double input.m_value = cell) :
    ((do_decode lib zone output cell).1 = .ok () ∧
      (do_decode lib zone output cell).2.contents = (Column.Float input).contents) ↔
        (Column.Float input).Returns zone output := by
  have hcontents : (Column.Float input).contents = some (.inr input.m_value) := by
    simp [contents, Column.m_isNull, hvalue, stored]
  rw [Returns, hcontents]
  subst hcell
  cases hnan : Datatype.Float.isNaN input.m_value with
  | true =>
    rw [sqlite3_bind_double, if_pos hnan]
    exact iff_of_false not_returns_null (by simp [hnan])
  | false =>
    rw [sqlite3_bind_double, if_neg (by simp [hnan])]
    cases output with
    | of column => cases htype
    | Float column =>
      refine iff_of_true ?_ hnan
      simp [do_decode, Column.set, Float.set, Float.setValue, lib.column_double, contents,
        Column.m_isNull, stored]

theorem returns_date_iff {input output : Abstract} {date m_value : Int64} {cell : Cell}
    (hin : input.value = .Date date) (hout : output.value = .Date m_value)
    (hcell : SqliteInputBinder.cell zone (.of input) .null = .ok cell) :
    ((do_decode lib zone (.of output) cell).1 = .ok () ∧
      (do_decode lib zone (.of output) cell).2.contents = some (.inl (.Date date))) ↔
        Date.Readable zone date := by
  simp only [SqliteInputBinder.cell, hin] at hcell
  cases hwritten : SqliteInputBinder.encodeDate zone date with
  | error ex =>
    rw [hwritten] at hcell
    cases hcell
  | ok written =>
    rw [hwritten] at hcell
    cases hcell
    obtain ⟨tt, -, hprint⟩ := Date.apply_eq_ok hwritten
    have hzero : 0 ∉ written := hprint ▸ Format.zero_not_mem_print Date.separated_defaultFormat
    rw [← Date.parse_eq_ok_iff hwritten]
    cases hparse : Date.parse zone written (some Date.DefaultFormat) with
    | error ex =>
      simp [do_decode, hout, Column.set, Abstract.set, Date.setText, lib.column_text,
        cStr_eq_self hzero, hparse]
    | ok newValue =>
      simp [do_decode, hout, Column.set, Abstract.set, Date.setText, lib.column_text,
        cStr_eq_self hzero, hparse, Abstract.clear, Abstract.getType, Abstract.call, Value.getType,
        Value.zero, Abstract.store, contents, Column.m_isNull, stored]

/-- A column of any datatype but `Float`. -/
theorem returns_of_iff {input output : Abstract} {cell : Cell} (hvalue : input.m_isNull = false)
    (hsized : (Column.of input).Sized) (htype : output.getType = input.getType)
    (hcell : SqliteInputBinder.cell zone (.of input) .null = .ok cell) :
    ((do_decode lib zone (.of output) cell).1 = .ok () ∧
      (do_decode lib zone (.of output) cell).2.contents = (Column.of input).contents) ↔
        (Column.of input).Returns zone (.of output) := by
  have hcontents : (Column.of input).contents = some (.inl input.value) := by
    simp [contents, Column.m_isNull, hvalue, stored]
  rw [Sized, hcontents] at hsized
  rw [Returns, hcontents]
  unfold Abstract.getType at htype
  cases hin : input.value with
  | Integer i =>
    cases hout : output.value with
    | Integer =>
      simp only [SqliteInputBinder.cell, hin, Except.ok.injEq] at hcell
      subst hcell
      refine iff_of_true ?_ trivial
      simp [do_decode, hout, Column.set, Abstract.set, Abstract.call, Abstract.store, lib.column_int,
        contents, Column.m_isNull, stored]
    | _ => simp [hin, hout, Value.getType] at htype
  | String str =>
    cases hout : output.value with
    | String =>
      simp only [SqliteInputBinder.cell, hin, Except.ok.injEq] at hcell
      subst hcell
      have hstr : CString.ofBytes str.val = str := Subtype.ext (cStr_eq_self str.property)
      by_cases hlen : output.m_maxSize < str.val.length
      · refine iff_of_false ?_ (Nat.not_le.mpr hlen)
        simp [do_decode, hout, Column.set, Abstract.set, String.setValue, lib.column_text, hstr, hlen]
      · refine iff_of_true ?_ (Nat.not_lt.mp hlen)
        simp [do_decode, hout, Column.set, Abstract.set, String.setValue, lib.column_text, hstr, hlen,
          Abstract.store, contents, Column.m_isNull, stored]
    | _ => simp [hin, hout, Value.getType] at htype
  | ShortBlock value =>
    cases hout : output.value with
    | ShortBlock =>
      simp only [SqliteInputBinder.cell, hin, sqlite3_bind_blob_sized (hsized value (by simp [hin])),
        Except.ok.injEq] at hcell
      subst hcell
      by_cases hsize : output.m_maxSize < value.length
      · refine iff_of_false ?_ (Nat.not_le.mpr hsize)
        simp [do_decode, hout, Column.set, Abstract.set, ShortBlock.setValue, lib.column_blob, hsize]
      · refine iff_of_true ?_ (Nat.not_lt.mp hsize)
        simp [do_decode, hout, Column.set, Abstract.set, ShortBlock.setValue, lib.column_blob, hsize,
          Abstract.store, contents, Column.m_isNull, stored]
    | _ => simp [hin, hout, Value.getType] at htype
  | LongBlock value =>
    cases hout : output.value with
    | LongBlock =>
      simp only [SqliteInputBinder.cell, hin, sqlite3_bind_blob_sized (hsized value (by simp [hin])),
        Except.ok.injEq] at hcell
      subst hcell
      refine iff_of_true ?_ trivial
      simp [do_decode, hout, Column.set, Abstract.set, LongBlock.setValue, lib.column_blob,
        Abstract.store, contents, Column.m_isNull, stored]
    | _ => simp [hin, hout, Value.getType] at htype
  | Date date =>
    cases hout : output.value with
    | Date => exact returns_date_iff hin hout hcell
    | _ => simp [hin, hout, Value.getType] at htype
  | TimeStamp timeStamp =>
    cases hout : output.value with
    | TimeStamp =>
      simp only [SqliteInputBinder.cell, hin, Except.ok.injEq] at hcell
      subst hcell
      refine iff_of_true ?_ trivial
      simp [do_decode, hout, Column.set, Abstract.set, Abstract.call, Abstract.store,
        lib.column_int64, contents, Column.m_isNull, stored]
    | _ => simp [hin, hout, Value.getType] at htype
  | MultiString values =>
    simp only [SqliteInputBinder.cell, hin, Except.ok.injEq] at hcell
    subst hcell
    exact iff_of_false not_returns_null id

theorem returns_iff {input output : Column} {cell : Cell}
    (hcell : SqliteInputBinder.do_encode lib zone input .null = .ok cell) (hsized : input.Sized)
    (htype : output.getType = input.getType) :
    ((do_decode lib zone output cell).1 = .ok () ∧
      (do_decode lib zone output cell).2.contents = input.contents) ↔ input.Returns zone output := by
  rcases SqliteInputBinder.do_encode_eq_ok hcell with ⟨hnull, rfl⟩ | ⟨hvalue, hcell⟩
  · exact returns_null_iff hnull
  · cases input with
    | Float input => exact returns_float_iff hvalue htype (Except.ok.inj hcell)
    | of input =>
      cases output with
      | of output => exact returns_of_iff hvalue hsized (Option.some.inj htype) hcell
      | Float output => cases htype

end SqliteOutputBinder

/-! ## One row -/

theorem Statement.returns_iff {inputs outputs : List Column} {cells : List Cell}
    (hcells : Statement.encode lib zone inputs = .ok cells) (hsized : ∀ data ∈ inputs, data.Sized)
    (htypes : outputs.map Column.getType = inputs.map Column.getType) :
    ((Statement.decode lib zone outputs cells).1 = .ok () ∧
      (Statement.decode lib zone outputs cells).2.map Column.contents = inputs.map Column.contents) ↔
        List.Forall₂ (Column.Returns zone) inputs outputs := by
  induction inputs generalizing outputs cells with
  | nil =>
    obtain rfl := List.map_eq_nil_iff.mp htypes
    cases cells <;> simp [Statement.decode]
  | cons input inputs ih =>
    cases outputs with
    | nil => cases htypes
    | cons output outputs =>
      obtain ⟨htype, htypes⟩ := List.cons.inj htypes
      rw [Statement.encode, List.mapM_cons] at hcells
      cases hcell : SqliteInputBinder.do_encode lib zone input .null with
      | error ex =>
        rw [hcell] at hcells
        cases hcells
      | ok cell =>
        rw [hcell] at hcells
        cases hrest : Statement.encode lib zone inputs with
        | error ex =>
          rw [Statement.encode] at hrest
          rw [hrest] at hcells
          cases hcells
        | ok rest =>
          have hrest' := hrest
          rw [Statement.encode] at hrest'
          rw [hrest'] at hcells
          cases hcells
          have hfirst := SqliteOutputBinder.returns_iff hcell (hsized input List.mem_cons_self) htype
          have hothers := ih hrest (fun data h => hsized data (List.mem_cons_of_mem input h)) htypes
          rw [List.forall₂_cons, ← hfirst, ← hothers, Statement.decode]
          cases hdecode : SqliteOutputBinder.do_decode lib zone output cell with
          | mk result after =>
            cases result with
            | error ex => simp
            | ok done => simp [and_left_comm]

/-! ## The rows of a result -/

namespace Query

variable {rows : List (List Cell)} {query : Query} {n k : Nat}

theorem fetch_cursor (query : Query) :
    (query.fetch lib zone rows).2.cursor = query.cursor.do_fetch.2 := by
  unfold fetch
  cases hfetch : query.cursor.do_fetch with
  | mk fetched cursor => cases fetched <;> rfl

theorem shape_fetch (query : Query) :
    (query.fetch lib zone rows).2.m_outputBinds.map shape = query.m_outputBinds.map shape := by
  unfold fetch
  cases hfetch : query.cursor.do_fetch with
  | mk fetched cursor =>
    cases fetched with
    | true => exact Statement.shape_decode _ _
    | false => rfl

theorem shape_fetches (query : Query) (k : Nat) :
    (query.fetches lib zone rows k).m_outputBinds.map shape = query.m_outputBinds.map shape := by
  induction k with
  | zero => rfl
  | succ k ih => exact (shape_fetch _).trans ih

/-- An exception of a column leaves the cursor behind the row all the same. -/
theorem at_fetches (hat : SqliteCursor.At n 0 query.cursor) (hk : k ≤ n) :
    SqliteCursor.At n k (query.fetches lib zone rows k).cursor := by
  induction k with
  | zero => exact hat
  | succ k ih =>
    rw [fetches, fetch_cursor]
    exact ((SqliteCursor.circulates []).next n k _ (ih (Nat.le_of_succ_le hk)) hk).2

theorem fetch_row {cells : List Cell} (hat : SqliteCursor.At rows.length k query.cursor)
    (hcells : rows[k]? = some cells) :
    (query.fetch lib zone rows).1 =
        (Statement.decode lib zone query.m_outputBinds cells).1.map (fun _ => true) ∧
      (query.fetch lib zone rows).2.m_outputBinds =
        (Statement.decode lib zone query.m_outputBinds cells).2 := by
  have hlt : k < rows.length := (List.getElem?_eq_some_iff.mp hcells).1
  have hnext := ((SqliteCursor.circulates []).next rows.length k _ hat hlt).1
  obtain ⟨hfetched, hcurrent⟩ := Option.ite_none_right_eq_some.mp hnext
  have hrow : row rows query.cursor.do_fetch.2 = cells := by
    rw [row, hcurrent, Option.bind_some, hcells, Option.getD_some]
  simp only [fetch, hfetched, if_true, hrow]
  exact ⟨trivial, trivial⟩

theorem fetch_end (hat : SqliteCursor.At n n query.cursor) :
    (query.fetch lib zone rows).1 = .ok false := by
  obtain ⟨hrows, ⟨-, hzero, hn, -⟩ | ⟨hfetch, hnext⟩⟩ := hat
  · exact absurd hzero (Nat.ne_of_gt hn)
  · have hfetched : query.cursor.do_fetch.1 = false := by
      simp [SqliteCursor.do_fetch, SqliteResult.SqliteStatement.do_fetch, SqliteCursor.sqlite3_step,
        hfetch, hnext, hrows, SqliteResult.Result.code, SqliteResult.SQLITE_DONE,
        SqliteResult.SQLITE_ROW]
    simp [fetch, hfetched]

theorem map_getType_of_shape {columns others : List Column}
    (h : columns.map shape = others.map shape) :
    columns.map Column.getType = others.map Column.getType := by
  have hfst := congrArg (List.map Prod.fst) h
  rwa [List.map_map, List.map_map] at hfst

end Query

end Coffee.Dbms
