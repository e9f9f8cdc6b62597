import Coffee.Dbms.Date

/-! # Columns and their setters

The columns of all datatypes, with what their setters throw. The bits of a `float` stand for its
value.
-/

namespace Coffee.Dbms.Datatype

open Coffee.Basis

inductive SetException where
  | canNotBeNull
  | outOfRange (maxLen len : Nat)
  | blockOutOfRange (maxSize size : Nat)
  | invalidDate (ex : RuntimeException)
deriving DecidableEq, Repr

/-- The calls that set a column. `setDateText` carries what its text is parsed to. -/
inductive Setter where
  | isNull
  | clear
  | setInteger (i : Int32)
  | setFloat (value : UInt32)
  | setString (str : Option CString)
  | setBlock (value : Bytes)
  | setDate (value : Int64)
  | setDateText (parsed : Except RuntimeException Int64)
  | addValue (value : Bytes)

namespace Abstract

variable (column : Abstract)

def setNull : Except SetException Unit × Abstract :=
  match column.isNull with
  | (true, column) => (.ok (), column)
  | (false, column) => (.error .canNotBeNull, column)

end Abstract

def String.setValue (column : Abstract) (str : Option CString) :
    Except SetException Unit × Abstract :=
  match str with
  | none => match column.setNull with
    | (.error ex, column) => (.error ex, column)
    | (.ok (), column) => (.ok (), column.clear)
  | some str =>
    if column.m_maxSize < str.val.length then
      (.error (.outOfRange column.m_maxSize str.val.length), column)
    else (.ok (), column.store (.String str))

def ShortBlock.setValue (column : Abstract) (value : Bytes) :
    Except SetException Unit × Abstract :=
  if column.m_maxSize < value.length then
    (.error (.blockOutOfRange column.m_maxSize value.length), column)
  else (.ok (), column.store (.ShortBlock value))

def LongBlock.setValue (column : Abstract) (value : Bytes) :
    Except SetException Unit × Abstract :=
  (.ok (), column.store (.LongBlock value))

/-- `Date::setValue` of a text, for both datatypes of dates. -/
def Date.setText (column : Abstract) (parsed : Except RuntimeException Int64) :
    Except SetException Unit × Abstract :=
  let column := column.clear
  match parsed with
  | .error ex => (.error (.invalidDate ex), column)
  | .ok newValue => (.ok (), column.call (.setDate newValue))

/-- A setter of another datatype is not there to be called. -/
def Abstract.set (column : Abstract) : Setter → Except SetException Unit × Abstract
  | .isNull => column.setNull
  | .clear => (.ok (), column.clear)
  | .setInteger i => (.ok (), column.call (.setInteger i))
  | .setFloat _ => (.ok (), column)
  | .setString str => match column.value with
    | .String _ => String.setValue column str
    | _ => (.ok (), column)
  | .setBlock value => match column.value with
    | .ShortBlock _ => ShortBlock.setValue column value
    | .LongBlock _ => LongBlock.setValue column value
    | _ => (.ok (), column)
  | .setDate value => (.ok (), column.call (.setDate value))
  | .setDateText parsed => match column.value with
    | .Date _ | .TimeStamp _ => Date.setText column parsed
    | _ => (.ok (), column)
  | .addValue value => (.ok (), column.call (.addValue value))

def Setter.toCall : Setter → Option Call
  | .isNull => some .isNull
  | .clear => some .clear
  | .setInteger i => some (.setInteger i)
  | .setFloat _ => none
  | .setString str => some (.setString str)
  | .setBlock value => some (.setBlock value)
  | .setDate value => some (.setDate value)
  | .setDateText parsed => some (.setDateFrom parsed.toOption)
  | .addValue value => some (.addValue value)

structure Float where
  m_name : CString
  m_constraint : Constraint
  m_isNull : Bool
  m_value : UInt32
deriving DecidableEq, Repr

namespace Float

def instantiate (name : CString) (constraint : Constraint) : Float :=
  ⟨name, constraint, constraint = .CanBeNull, 0⟩

variable (column : Float)

def setNull : Except SetException Unit × Float :=
  if column.m_constraint = .CanNotBeNull then (.error .canNotBeNull, column)
  else (.ok (), { column with m_isNull := true })

def clear : Float :=
  { column with
    m_isNull := column.m_isNull || column.m_constraint = .CanBeNull
    m_value := 0 }

def setValue (value : UInt32) : Float := { column with m_value := value, m_isNull := false }

def set : Setter → Except SetException Unit × Float
  | .isNull => column.setNull
  | .clear => (.ok (), column.clear)
  | .setFloat value => (.ok (), column.setValue value)
  | _ => (.ok (), column)

def exponent (bits : UInt32) : Nat := bits.toNat / 2 ^ 23 % 2 ^ 8

def fraction (bits : UInt32) : Nat := bits.toNat % 2 ^ 23

def isSpecial (bits : UInt32) : Bool := exponent bits == 255

def isNaN (bits : UInt32) : Bool := isSpecial bits && fraction bits != 0

/-- The number in units of 2^-149. An infinity is behind all others. -/
def units (bits : UInt32) : Int :=
  let magnitude := if exponent bits = 0 then fraction bits
    else (2 ^ 23 + fraction bits) * 2 ^ (exponent bits - 1)
  if 2 ^ 31 ≤ bits.toNat then -magnitude else magnitude

/-- The difference of the operands is a NaN where one of them is, or both are the same infinity;
elsewhere it has the sign of the difference of the numbers. -/
def do_compare (m_value other : UInt32) : Int32 :=
  if isNaN m_value || isNaN other || (isSpecial m_value && m_value == other) then 1
  else
    let rr := units m_value - units other
    if rr = 0 then 0 else if rr < 0 then -1 else 1

def compare (other : Float) : Except CompareException Int32 :=
  if column.m_isNull && other.m_isNull then .ok 0
  else if other.m_isNull then .ok 1
  else if column.m_isNull then .ok (-1)
  else .ok (do_compare column.m_value other.m_value)

theorem do_compare_self (bits : UInt32) : do_compare bits bits = 0 ↔ isSpecial bits = false := by
  cases h : isSpecial bits <;> simp [do_compare, isNaN, h]

end Float

inductive Column where
  | of (column : Abstract)
  | Float (column : Float)
deriving DecidableEq, Repr

namespace Column

def set : Column → Setter → Except SetException Unit × Column
  | of column, setter => ((column.set setter).1, of (column.set setter).2)
  | Float column, setter => ((column.set setter).1, Float (column.set setter).2)

def m_isNull : Column → Bool
  | of column => column.m_isNull
  | Float column => column.m_isNull

/-- What a column stores, null or not. -/
def stored : Column → Value ⊕ UInt32
  | of column => .inl column.value
  | Float column => .inr column.m_value

/-- `Float` has the exception of the other columns. -/
def getValue : Column → Except RuntimeException (Value ⊕ UInt32)
  | of column => column.getValue.map .inl
  | Float column =>
    if column.m_isNull then
      .error ⟨text "Data '" ++ column.m_name ++ text "' is null and it can not return any value"⟩
    else .ok (.inr column.m_value)

def compare : Column → Column → Except CompareException Int32
  | of column, of other => column.compare other
  | Float column, Float other => column.compare other
  | _, _ => .error .typeMismatch

/-- `std::hash<float>` is a parameter, too. -/
def hash (string : Bytes → UInt64) (float : UInt32 → UInt64) : Column → UInt64
  | of column => column.hash string
  | Float column => float column.m_value

/-- A setter that throws leaves the value and the flag as they were. -/
def Atomic (column : Column) (setter : Setter) : Prop :=
  ∀ ex, (column.set setter).1 = .error ex →
    (column.set setter).2.stored = column.stored ∧
      (column.set setter).2.m_isNull = column.m_isNull

/-- A text that is no date is set on a date with something to lose: a value, or a flag that is not
null although it may be. -/
def Erases (column : Column) (setter : Setter) : Prop :=
  ∃ date ex, column = of date ∧ setter = .setDateText (.error ex) ∧
    (date.getType = .Date ∨ date.getType = .TimeStamp) ∧
    (date.value ≠ Value.zero date.getType ∨
      (date.m_constraint = .CanBeNull ∧ date.m_isNull = false))

end Column

namespace Abstract

variable {column : Abstract} {ex : SetException}

theorem setNull_spec (column : Abstract) :
    column.setNull.2 = column.isNull.2 ∧
      (column.setNull.1 = .error ex → column.setNull.2 = column) := by
  unfold setNull isNull
  by_cases h : column.m_constraint = .CanNotBeNull <;> simp [h]

theorem set_snd (column : Abstract) (setter : Setter) :
    (column.set setter).2 = (setter.toCall.map column.call).getD column := by
  cases setter with
  | isNull => exact (@setNull_spec .canNotBeNull column).1
  | clear | setInteger | setFloat | setDate | addValue => rfl
  | setString str =>
    simp only [set, Setter.toCall, Option.map_some, Option.getD_some, call]
    cases column.value with
    | String =>
      cases str with
      | none =>
        simp only [String.setValue, setNull, isNull]
        by_cases h : column.m_constraint = .CanNotBeNull <;> simp [h]
      | some str =>
        simp only [String.setValue]
        split <;> rfl
    | Integer | ShortBlock | LongBlock | Date | TimeStamp | MultiString => rfl
  | setBlock value =>
    simp only [set, Setter.toCall, Option.map_some, Option.getD_some, call]
    cases column.value with
    | ShortBlock =>
      simp only [ShortBlock.setValue]
      split <;> rfl
    | String | Integer | LongBlock | Date | TimeStamp | MultiString => rfl
  | setDateText parsed =>
    simp only [set, Setter.toCall, Option.map_some, Option.getD_some, call]
    cases hvalue : column.value with
    | Date | TimeStamp =>
      have hclear : column.clear.value = Value.zero column.getType := rfl
      rw [getType, hvalue] at hclear
      cases parsed with
      | error ex => rfl
      | ok value => simp [Date.setText, call, hclear, Value.getType, Value.zero, Except.toOption]
    | String | Integer | ShortBlock | LongBlock | MultiString => rfl

end Abstract

section Errors

variable {column : Abstract} {ex : SetException}

theorem String.setValue_error {str : Option CString} (h : (setValue column str).1 = .error ex) :
    (setValue column str).2 = column := by
  cases str with
  | none =>
    unfold setValue Abstract.setNull Abstract.isNull at *
    by_cases hnull : column.m_constraint = .CanNotBeNull
    · simp [hnull]
    · simp [hnull] at h
  | some str =>
    by_cases hlen : column.m_maxSize < str.val.length
    · simp [setValue, hlen]
    · simp [setValue, hlen] at h

theorem ShortBlock.setValue_error {value : Bytes} (h : (setValue column value).1 = .error ex) :
    (setValue column value).2 = column := by
  by_cases hsize : column.m_maxSize < value.length
  · simp [setValue, hsize]
  · simp [setValue, hsize] at h

/-- A text that is no date throws behind the clear, and every other setter before it changes
anything. -/
theorem Abstract.set_error {setter : Setter} (h : (column.set setter).1 = .error ex) :
    (column.set setter).2 = column ∨
      (∃ ex, setter = .setDateText (.error ex)) ∧
        (column.getType = .Date ∨ column.getType = .TimeStamp) := by
  cases setter with
  | isNull => exact .inl ((setNull_spec column).2 h)
  | clear | setInteger | setFloat | setDate | addValue => cases h
  | setString str =>
    simp only [set] at *
    cases hvalue : column.value with
    | String =>
      rw [hvalue] at h
      exact .inl (String.setValue_error h)
    | Integer | ShortBlock | LongBlock | Date | TimeStamp | MultiString =>
      rw [hvalue] at h
      cases h
  | setBlock value =>
    simp only [set] at *
    cases hvalue : column.value with
    | ShortBlock =>
      rw [hvalue] at h
      exact .inl (ShortBlock.setValue_error h)
    | String | Integer | LongBlock | Date | TimeStamp | MultiString =>
      rw [hvalue] at h
      cases h
  | setDateText parsed =>
    right
    simp only [set] at h
    cases hvalue : column.value with
    | Date | TimeStamp =>
      rw [hvalue] at h
      cases parsed with
      | error ex => simp [getType, hvalue, Value.getType]
      | ok value => cases h
    | String | Integer | ShortBlock | LongBlock | MultiString =>
      rw [hvalue] at h
      cases h

theorem Abstract.set_setDateText_error (ex : RuntimeException)
    (htype : column.getType = .Date ∨ column.getType = .TimeStamp) :
    column.set (.setDateText (.error ex)) = (.error (.invalidDate ex), column.clear) := by
  unfold getType at htype
  simp only [set]
  cases hvalue : column.value with
  | Date | TimeStamp => rfl
  | String | Integer | ShortBlock | LongBlock | MultiString => simp [hvalue, Value.getType] at htype

/-- `Date::setValue` of a text is the setter of what the text is parsed to. -/
theorem Date.setValue_set (zone : Zone) (str : Bytes) (format : Option Format)
    (htype : column.getType = .Date ∨ column.getType = .TimeStamp) :
    (column.set (.setDateText (parse zone str format))).2 = (setValue zone str format column).2 ∧
      (column.set (.setDateText (parse zone str format))).1 =
        (setValue zone str format column).1.mapError .invalidDate := by
  refine ⟨Abstract.set_snd column _, ?_⟩
  cases hparse : parse zone str format with
  | error ex => simp [setValue, hparse, Abstract.set_setDateText_error ex htype, Except.map, Except.mapError]
  | ok newValue =>
    unfold Abstract.getType at htype
    simp only [Abstract.set, setValue, hparse]
    cases hvalue : column.value with
    | Date | TimeStamp => rfl
    | String | Integer | ShortBlock | LongBlock | MultiString => rfl

theorem Abstract.clear_keeps_iff (column : Abstract) :
    (column.clear.value = column.value ∧ column.clear.m_isNull = column.m_isNull) ↔
      ¬ (column.value ≠ Value.zero column.getType ∨
        (column.m_constraint = .CanBeNull ∧ column.m_isNull = false)) := by
  cases hnull : column.m_isNull <;> simp [clear, hnull, eq_comm]

theorem Float.set_error {column : Float} {setter : Setter} (h : (column.set setter).1 = .error ex) :
    (column.set setter).2 = column := by
  cases setter with
  | isNull =>
    unfold set setNull at *
    by_cases hnull : column.m_constraint = .CanNotBeNull
    · simp [hnull]
    · simp [hnull] at h
  | clear | setInteger | setFloat | setString | setBlock | setDate | setDateText | addValue => cases h

end Errors

namespace Column

/-- The setters are atomic but for a text that is no date, which costs a date what it holds. -/
theorem set_atomic_iff (column : Column) (setter : Setter) :
    column.Atomic setter ↔ ¬ column.Erases setter := by
  constructor
  · rintro hatomic ⟨date, ex, rfl, rfl, htype, hholds⟩
    have hset := Abstract.set_setDateText_error ex htype
    obtain ⟨hstored, hnull⟩ := hatomic (.invalidDate ex) (by rw [set, hset])
    rw [set, hset] at hstored hnull
    exact (Abstract.clear_keeps_iff date).mp ⟨Sum.inl.inj hstored, hnull⟩ hholds
  · intro hnot ex herror
    cases column with
    | Float column => rw [set, Float.set_error herror]; exact ⟨rfl, rfl⟩
    | of column =>
      obtain hsame | ⟨⟨ex', rfl⟩, htype⟩ := Abstract.set_error herror
      · rw [set, hsame]
        exact ⟨rfl, rfl⟩
      · have hholds := (Abstract.clear_keeps_iff column).mpr fun hholds =>
          hnot ⟨column, ex', rfl, rfl, htype, hholds⟩
        rw [set, Abstract.set_setDateText_error ex' htype]
        exact ⟨congrArg Sum.inl hholds.1, hholds.2⟩

theorem not_set_atomic : ¬ ∀ (column : Column) (setter : Setter), column.Atomic setter := by
  intro h
  let date : Abstract := ⟨⟨text "day", by decide⟩, 48, .CanNotBeNull, false, .Date 1⟩
  let parsed := Date.parse ⟨0, 0, fun _ => false⟩ (text "x") (some Date.DefaultFormat)
  have herror : ((of date).set (.setDateText parsed)).1 =
      .error (.invalidDate ⟨text "'x' is not a valid date using format '%Y-%m-%dT%H:%M:%S'"⟩) := by
    decide +kernel
  exact absurd (h (of date) (.setDateText parsed) _ herror).1 (by decide +kernel)

end Column

end Coffee.Dbms.Datatype
