import Coffee.Basis.Text

/-! # Datatypes

The columns of `dbms::datatype`: what they store, the calls that change it, their comparison and
their hash. A null column keeps what it stored before. `Float` joins them in `Coffee.Dbms.Column`.
-/

namespace Coffee.Dbms

open Coffee.Basis

inductive Datatype where
  | Integer | String | ShortBlock | LongBlock | Date | TimeStamp | MultiString
deriving DecidableEq, Repr

inductive Constraint where
  | CanBeNull | CanNotBeNull
deriving DecidableEq, Repr

abbrev CString := { s : Bytes // 0 ∉ s }

def CString.ofBytes (s : Bytes) : CString :=
  ⟨cStr s, fun h => by simpa using List.mem_takeWhile_imp h⟩

/-- The sign of `strcmp`, which compares bytes as `unsigned char`. -/
def threeWay {α : Type} [LT α] [DecidableLT α] (a b : α) : Int32 :=
  if a < b then -1 else if b < a then 1 else 0

def strcmp (s t : Bytes) : Int32 := threeWay (cStr s) (cStr t)

/-- Why a comparison throws. -/
inductive CompareException where
  | typeMismatch | canNotApply | notDefined (name : CString) | differentSizes (size other : Nat)
deriving DecidableEq, Repr

namespace Datatype

/-- What a column stores: the dates as seconds, and the blocks of the two block datatypes. -/
inductive Value where
  | Integer (m_value : Int32)
  | String (m_value : CString)
  | ShortBlock (m_value : Bytes)
  | LongBlock (m_value : Bytes)
  | Date (m_value : Int64)
  | TimeStamp (m_value : Int64)
  | MultiString (values : List Bytes)
deriving DecidableEq, Repr

namespace Value

def getType : Value → Datatype
  | Integer _ => .Integer
  | String _ => .String
  | ShortBlock _ => .ShortBlock
  | LongBlock _ => .LongBlock
  | Date _ => .Date
  | TimeStamp _ => .TimeStamp
  | MultiString _ => .MultiString

/-- The value behind a constructor, and behind `do_clear`. -/
def zero : Datatype → Value
  | .Integer => Integer 0
  | .String => String ⟨[], List.not_mem_nil⟩
  | .ShortBlock => ShortBlock []
  | .LongBlock => LongBlock []
  | .Date => Date 0
  | .TimeStamp => TimeStamp 0
  | .MultiString => MultiString []

end Value

def Integer.do_compare (m_value other : Int32) : Int32 := m_value - other

/-- The difference of the `count()`s, narrowed to an `int`. -/
def Date.do_compare (m_value other : Int64) : Int32 := (m_value - other).toInt32

namespace MultiString

/-- The loop over the values: the first difference of their C strings. -/
def firstDifference : List Bytes → List Bytes → Int32
  | value :: values, value' :: other =>
    if strcmp value value' ≠ 0 then strcmp value value' else firstDifference values other
  | _, _ => 0

/-- `maxii` is the size narrowed to an `int`. An index behind the greatest `int` is undefined and
taken modulo 2^32 here. -/
def do_compare (values other : List Bytes) : Int32 :=
  let diffSize := Int32.ofInt (values.length - other.length)
  if diffSize ≠ 0 then diffSize
  else
    let maxii := values.length % 2 ^ 32
    firstDifference (values.take maxii) (other.take maxii)

end MultiString

/-- The blocks of both datatypes throw. -/
def Value.do_compare : Value → Value → Except CompareException Int32
  | Integer m_value, Integer other => .ok (Integer.do_compare m_value other)
  | String m_value, String other => .ok (strcmp m_value other)
  | Date m_value, Date other => .ok (Date.do_compare m_value other)
  | TimeStamp m_value, TimeStamp other => .ok (Date.do_compare m_value other)
  | MultiString values, MultiString other => .ok (MultiString.do_compare values other)
  | _, _ => .error .canNotApply

/-- `std::hash<std::string>` is a parameter. -/
def Value.hash (string : Bytes → UInt64) : Value → UInt64
  | Integer m_value => m_value.toInt64.toUInt64
  | String m_value => string m_value
  | ShortBlock m_value => UInt64.ofNat m_value.length
  | LongBlock m_value => UInt64.ofNat m_value.length
  | Date m_value => m_value.toUInt64
  | TimeStamp m_value => m_value.toUInt64
  | MultiString values =>
    values.foldl (fun result value => result ^^^ string value) (UInt64.ofNat values.length)

structure Abstract where
  m_name : CString
  m_maxSize : Nat
  m_constraint : Constraint
  m_isNull : Bool
  value : Value
deriving DecidableEq, Repr

/-- The calls that change a column. The typed ones are made on columns of their datatype;
`setDateFrom` carries what its text is parsed to. -/
inductive Call where
  | isNull
  | clear
  | setInteger (i : Int32)
  | setString (str : Option CString)
  | addValue (value : Bytes)
  | setDate (value : Int64)
  | setDateFrom (parsed : Option Int64)
  | setBlock (value : Bytes)
deriving DecidableEq, Repr

namespace Abstract

variable (column : Abstract)

def instantiate (type : Datatype) (name : CString) (maxSize : Nat) (constraint : Constraint) :
    Abstract :=
  ⟨name, maxSize, constraint, constraint = .CanBeNull, Value.zero type⟩

def getType : Datatype := column.value.getType

def hasValue : Bool := !column.m_isNull

/-- `false` when it throws. -/
def isNull : Bool × Abstract :=
  if column.m_constraint = .CanNotBeNull then (false, column)
  else (true, { column with m_isNull := true })

def clear : Abstract :=
  { column with
    m_isNull := column.m_isNull || column.m_constraint = .CanBeNull
    value := Value.zero column.getType }

def store (value : Value) : Abstract := { column with value, m_isNull := false }

def call : Call → Abstract
  | .isNull => column.isNull.2
  | .clear => column.clear
  | .setInteger i => match column.value with
    | .Integer _ => column.store (.Integer i)
    | _ => column
  | .setString str => match column.value with
    | .String _ => match str with
      | none => if column.isNull.1 then column.isNull.2.clear else column
      | some str =>
        if column.m_maxSize < str.val.length then column else column.store (.String str)
    | _ => column
  | .addValue value => match column.value with
    | .MultiString values => column.store (.MultiString (values ++ [value]))
    | _ => column
  | .setDate value => match column.value with
    | .Date _ => column.store (.Date value)
    | .TimeStamp _ => column.store (.TimeStamp value)
    | _ => column
  | .setDateFrom parsed => match column.value with
    | .Date _ => match parsed with
      | none => column.clear
      | some value => column.clear.store (.Date value)
    | .TimeStamp _ => match parsed with
      | none => column.clear
      | some value => column.clear.store (.TimeStamp value)
    | _ => column
  | .setBlock value => match column.value with
    | .ShortBlock _ =>
      if column.m_maxSize < value.length then column else column.store (.ShortBlock value)
    | .LongBlock _ => column.store (.LongBlock value)
    | _ => column

def compare (other : Abstract) : Except CompareException Int32 :=
  if column.getType ≠ other.getType then .error .typeMismatch
  else if !column.hasValue && !other.hasValue then .ok 0
  else if column.hasValue && !other.hasValue then .ok 1
  else if !column.hasValue && other.hasValue then .ok (-1)
  else column.value.do_compare other.value

def hash (string : Bytes → UInt64) : UInt64 := column.value.hash string

/-- What the column shows. -/
def contents : Option Value := if column.hasValue then some column.value else none

end Abstract

end Datatype

end Coffee.Dbms
