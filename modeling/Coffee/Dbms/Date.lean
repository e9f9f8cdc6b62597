import Coffee.Basis.DateText
import Coffee.Dbms.Datatype

/-! # Dates of the sqlite binders

A date is stored as the text of its local time. `Date::setValue` reads it as standard time, and
takes -1 for an error of `mktime`.
-/

namespace Coffee.Dbms

open Coffee.Library Coffee.Basis

namespace Datatype

namespace Date

/-- `"%Y-%m-%dT%H:%M:%S"` -/
def DefaultFormat : Format :=
  [.conversion .Y, .literal 45, .conversion .m, .literal 45, .conversion .d, .literal 84,
    .conversion .H, .literal 58, .conversion .M, .literal 58, .conversion .S]

/-- What `setValue` reads from a text, without a format where the pointer is `NULL`. -/
def parse (zone : Zone) (str : Bytes) : (format : Option Format) → Except RuntimeException Int64
  | none => .error ⟨text "This method requires a format specification"⟩
  | some format =>
    match strptime (cStr str) format ⟨0, 0, 0, 0, 0, 0, 0⟩ with
    | none => .error ⟨text "'" ++ cStr str ++ text "' is not a valid date using format '" ++
        format.text ++ text "'"⟩
    | some (aux, _) =>
      let newValue := zone.mktime { aux with tm_isdst := 0 }
      if newValue = -1 then
        .error ⟨text "'" ++ cStr str ++ text "' can not be treated as std::chrono::seconds '" ++
          format.text ++ text "'"⟩
      else .ok newValue

/-- The column is cleared before anything is checked. -/
def setValue (zone : Zone) (str : Bytes) (format : Option Format) (column : Abstract) :
    Except RuntimeException Unit × Abstract :=
  let parsed := parse zone str format
  (parsed.map fun _ => (), column.call (.setDateFrom parsed.toOption))

end Date

def Abstract.getValue (column : Abstract) : Except RuntimeException Value :=
  if column.m_isNull then
    .error ⟨text "Data '" ++ column.m_name ++ text "' is null and it can not return any value"⟩
  else .ok column.value

end Datatype

open Datatype

def SqliteInputBinder.encodeDate (zone : Zone) (date : Int64) : Except RuntimeException Bytes :=
  AsString.apply zone date Date.DefaultFormat

def SqliteOutputBinder.decodeDate (zone : Zone) (date : Bytes) (data : Abstract) :
    Except RuntimeException Unit × Abstract :=
  Date.setValue zone (cStr date) (some Date.DefaultFormat) data

namespace Datatype.Date

/-- A date that comes back from its text. -/
structure Readable (zone : Zone) (value : Int64) : Prop where
  error_ne : value ≠ -1
  year : -62167219200 ≤ value.toInt + zone.offset value.toInt ∧
    value.toInt + zone.offset value.toInt < 253402300800
  standard : zone.isDaylight value.toInt = true → zone.daylight = zone.standard

variable {zone : Zone} {value : Int64} {written : Bytes}

theorem separated_defaultFormat : Format.separated DefaultFormat = true := by decide

theorem assign_defaultFormat (tm aux : Tm) :
    Format.assign tm DefaultFormat aux = { tm with tm_isdst := aux.tm_isdst } := by
  simp [DefaultFormat, Format.assign, Conversion.set, Conversion.get]

theorem apply_eq_ok {format : Format} (h : AsString.apply zone value format = .ok written) :
    ∃ tt, zone.localtime value = some tt ∧ written = format.print tt := by
  unfold AsString.apply at h
  split at h
  · cases h
  · next tt htime =>
    unfold strftime at h
    dsimp only at h
    split at h
    · split at h
      · cases h
      · cases h
        exact ⟨tt, htime, rfl⟩
    · cases h

theorem strptime_print_defaultFormat (tm aux : Tm) (hfits : ∀ {c : Conversion}, c ≠ .Y → c.Fits tm) :
    strptime (Format.print tm DefaultFormat) DefaultFormat aux =
      if Conversion.Y.Fits tm then some ({ tm with tm_isdst := aux.tm_isdst }, []) else none := by
  split
  · next hyear =>
    rw [Format.strptime_print separated_defaultFormat, assign_defaultFormat]
    intro c _
    by_cases hc : c = .Y
    · exact hc ▸ hyear
    · exact hfits hc
  · next hyear =>
    rw [DefaultFormat, Format.print, strptime]
    split
    · rfl
    · next value left hread =>
      obtain ⟨d, hd, hdigit⟩ := Conversion.head_of_read_year hyear hread
      obtain ⟨rest, rfl⟩ := List.head?_eq_some_iff.mp hd
      rw [strptime.eq_def]
      dsimp only
      rw [if_neg (by decide), if_neg]
      rintro rfl
      exact absurd hdigit (by decide)

theorem mktime_standard {tm : Tm} (h : zone.localtime value = some tm) :
    zone.mktime { tm with tm_isdst := 0 } =
      let time := value.toInt + zone.offset value.toInt - zone.standard
      if -2 ^ 63 ≤ time ∧ time < 2 ^ 63 then Int64.ofInt time else -1 := by
  have hseconds := Zone.seconds_localtime h
  unfold Zone.mktime Tm.seconds at *
  dsimp only
  rw [if_pos rfl, hseconds]

theorem mktime_eq_iff {tm : Tm} (h : zone.localtime value = some tm) (hne : value ≠ -1) :
    zone.mktime { tm with tm_isdst := 0 } = value ↔
      zone.offset value.toInt = zone.standard := by
  have hle := Int64.le_toInt value
  have hlt := Int64.toInt_lt value
  rw [mktime_standard h]
  dsimp only
  split
  · next hrange =>
    rw [← Int64.toInt_inj, Int64.toInt_ofInt_of_le hrange.1 hrange.2]
    omega
  · next hrange =>
    constructor
    · intro heq
      exact absurd heq.symm hne
    · intro heq
      omega

theorem readable_iff : Readable zone value ↔ value ≠ -1 ∧
    (-62167219200 ≤ value.toInt + zone.offset value.toInt ∧
      value.toInt + zone.offset value.toInt < 253402300800) ∧
    zone.offset value.toInt = zone.standard := by
  have hstandard : zone.offset value.toInt = zone.standard ↔
      (zone.isDaylight value.toInt = true → zone.daylight = zone.standard) := by
    unfold Zone.offset
    by_cases hdaylight : zone.isDaylight value.toInt = true <;> simp [hdaylight]
  rw [hstandard]
  constructor
  · intro h
    exact ⟨h.error_ne, h.year, h.standard⟩
  · intro h
    exact ⟨h.1, h.2.1, h.2.2⟩

/-- The text is read as standard time; -1 and a year that is not read are refused. -/
theorem parse_eq_ok_iff (h : AsString.apply zone value DefaultFormat = .ok written) :
    parse zone written (some DefaultFormat) = .ok value ↔ Readable zone value := by
  obtain ⟨tt, htime, rfl⟩ := apply_eq_ok h
  have hzero : 0 ∉ Format.print tt DefaultFormat :=
    Format.zero_not_mem_print separated_defaultFormat
  rw [readable_iff, ← Zone.fits_year_localtime_iff htime, parse, cStr_eq_self hzero,
    strptime_print_defaultFormat _ _ (Zone.fits_localtime htime)]
  by_cases hyear : Conversion.Y.Fits tt
  · rw [if_pos hyear]
    dsimp only
    by_cases hvalue : value = -1
    · subst hvalue
      split
      · simp
      · next hne => simp [hne]
    · rw [← mktime_eq_iff htime hvalue]
      split
      · next herror => simp [herror, Ne.symm hvalue]
      · simp [hvalue, hyear]
  · simp [hyear]

theorem setValue_eq (zone : Zone) (str : Bytes) (format : Option Format) {column : Abstract}
    (hdate : column.getType = .Date) :
    setValue zone str format column = match parse zone str format with
      | .ok newValue => (.ok (), column.clear.store (.Date newValue))
      | .error ex => (.error ex, column.clear) := by
  unfold setValue Abstract.call
  dsimp only
  unfold Abstract.getType at hdate
  cases hvalue : column.value with
  | Date m_value => cases parse zone str format <;> rfl
  | Integer | String | ShortBlock | LongBlock | TimeStamp | MultiString =>
    rw [hvalue] at hdate
    cases hdate

theorem getValue_setValue_iff (zone : Zone) (str : Bytes) (format : Option Format) (value : Int64)
    {column : Abstract} (hdate : column.getType = .Date) :
    ((setValue zone str format column).1 = .ok () ∧
      (setValue zone str format column).2.getValue = .ok (.Date value)) ↔
        parse zone str format = .ok value := by
  rw [setValue_eq zone str format hdate]
  cases parse zone str format with
  | error ex => simp
  | ok newValue => simp [Abstract.getValue, Abstract.store]

/-- A date column holds the date again just where its text can be read. -/
theorem setValue_apply_iff (h : AsString.apply zone value DefaultFormat = .ok written)
    {column : Abstract} (hdate : column.getType = .Date) :
    ((setValue zone written (some DefaultFormat) column).1 = .ok () ∧
      (setValue zone written (some DefaultFormat) column).2.getValue = .ok (.Date value)) ↔
        Readable zone value := by
  rw [getValue_setValue_iff zone written _ value hdate]
  exact parse_eq_ok_iff h

/-- A date of the winter in central Europe. -/
theorem setValue_apply_iff_winter :
    ((setValue ⟨3600, 7200, fun _ => false⟩ (text "1987-01-31T17:59:59") (some DefaultFormat)
        (Abstract.instantiate .Date ⟨[], List.not_mem_nil⟩ 48 .CanBeNull)).1 = .ok () ∧
      (setValue ⟨3600, 7200, fun _ => false⟩ (text "1987-01-31T17:59:59") (some DefaultFormat)
        (Abstract.instantiate .Date ⟨[], List.not_mem_nil⟩ 48 .CanBeNull)).2.getValue =
          .ok (.Date 539110799)) ↔
      Readable ⟨3600, 7200, fun _ => false⟩ 539110799 :=
  setValue_apply_iff (by decide +kernel) rfl

/-- In the summer the text of 1530000000 is read as 1530003600. -/
theorem not_setValue_apply : ¬ ∀ (zone : Zone) (value : Int64) (written : Bytes) (column : Abstract),
    AsString.apply zone value DefaultFormat = .ok written → column.getType = .Date →
      (setValue zone written (some DefaultFormat) column).1 = .ok () ∧
        (setValue zone written (some DefaultFormat) column).2.getValue = .ok (.Date value) := by
  intro h
  have hsummer := h ⟨3600, 7200, fun time => 1521939600 ≤ time && time < 1540688400⟩ 1530000000
    (text "2018-06-26T10:00:00") (Abstract.instantiate .Date ⟨[], List.not_mem_nil⟩ 48 .CanBeNull)
    (by decide +kernel) rfl
  revert hsummer
  decide +kernel

end Datatype.Date

open Datatype.Date

/-- A date that the input binder stores, and the output binder reads into a date column. -/
theorem SqliteOutputBinder.decodeDate_encodeDate_iff {zone : Zone} {value : Int64} {date : Bytes}
    (h : SqliteInputBinder.encodeDate zone value = .ok date) {data : Abstract}
    (hdate : data.getType = .Date) :
    ((decodeDate zone date data).1 = .ok () ∧
      (decodeDate zone date data).2.getValue = .ok (.Date value)) ↔ Readable zone value := by
  obtain ⟨tt, -, hprint⟩ := apply_eq_ok h
  have hzero : 0 ∉ date := hprint ▸ Format.zero_not_mem_print separated_defaultFormat
  rw [decodeDate, cStr_eq_self hzero, getValue_setValue_iff zone date _ value hdate]
  exact parse_eq_ok_iff h

end Coffee.Dbms
