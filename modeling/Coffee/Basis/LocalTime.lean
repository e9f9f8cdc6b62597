import Coffee.Basis.Text
import Coffee.Library.Calendar
import Coffee.Library.Numeral

/-! # Local time

`localtime`, `mktime`, `strftime` and `strptime` in a zone with a standard and a daylight offset,
and `AsString::apply` over them. The formats are those of the conversions below; `%Y` is written
without leading zeros, and read from four digits at most.
-/

namespace Coffee.Basis

open Coffee.Library

/-- The fields of `struct tm` that the conversions and `mktime` read. -/
structure Tm where
  tm_sec : Int
  tm_min : Int
  tm_hour : Int
  tm_mday : Int
  tm_mon : Int
  tm_year : Int
  tm_isdst : Int
deriving DecidableEq, Repr

structure Zone where
  standard : Int
  daylight : Int
  isDaylight : Int → Bool

namespace Zone

variable (zone : Zone)

def offset (time : Int) : Int := if zone.isDaylight time then zone.daylight else zone.standard

/-- `none` where the year does not fit into an `int`. -/
def localtime (time : Int64) : Option Tm :=
  let seconds := time.toInt + zone.offset time.toInt
  let date := Calendar.ofDayNumber (seconds / 86400 + 719528)
  let tm_year := date.year - 1900
  if -2 ^ 31 ≤ tm_year ∧ tm_year < 2 ^ 31 then
    some ⟨seconds % 60, seconds / 60 % 60, seconds / 3600 % 24, date.day, date.month, tm_year,
      if zone.isDaylight time.toInt then 1 else 0⟩
  else none

end Zone

/-- The seconds from the Epoch to these fields, which need not be in their ranges. -/
def Tm.seconds (tm : Tm) : Int :=
  (Calendar.dayNumber (tm.tm_year + 1900 + tm.tm_mon / 12) (tm.tm_mon % 12).toNat tm.tm_mday -
    719528) * 86400 + tm.tm_hour * 3600 + tm.tm_min * 60 + tm.tm_sec

/-- A negative `tm_isdst` asks `mktime` to find out; a time that does not fit is answered with -1. -/
def Zone.mktime (zone : Zone) (tm : Tm) : Int64 :=
  let offset :=
    if tm.tm_isdst = 0 then zone.standard
    else if 0 < tm.tm_isdst then zone.daylight
    else if zone.isDaylight (tm.seconds - zone.daylight) then zone.daylight
    else zone.standard
  let time := tm.seconds - offset
  if -2 ^ 63 ≤ time ∧ time < 2 ^ 63 then Int64.ofInt time else -1

inductive Conversion where
  | Y | m | d | H | M | S
deriving DecidableEq, Repr

inductive Directive where
  | literal (c : UInt8)
  | conversion (c : Conversion)
deriving DecidableEq, Repr

abbrev Format := List Directive

namespace Conversion

def letter : Conversion → UInt8
  | Y => 89
  | m => 109
  | d => 100
  | H => 72
  | M => 77
  | S => 83

def get (tm : Tm) : Conversion → Int
  | Y => tm.tm_year + 1900
  | m => tm.tm_mon + 1
  | d => tm.tm_mday
  | H => tm.tm_hour
  | M => tm.tm_min
  | S => tm.tm_sec

def set (tm : Tm) (value : Int) : Conversion → Tm
  | Y => { tm with tm_year := value - 1900 }
  | m => { tm with tm_mon := value - 1 }
  | d => { tm with tm_mday := value }
  | H => { tm with tm_hour := value }
  | M => { tm with tm_min := value }
  | S => { tm with tm_sec := value }

/-- The bounds that `strptime` checks, and the digits it takes. -/
def lower : Conversion → Nat
  | m | d => 1
  | Y | H | M | S => 0

def upper : Conversion → Nat
  | Y => 9999
  | m => 12
  | d => 31
  | H => 23
  | M => 59
  | S => 61

def width : Conversion → Nat
  | Y => 4
  | m | d | H | M | S => 2

def twoDigits (number : Int) : Bytes :=
  if 0 ≤ number ∧ number < 10 then 48 :: asString number else asString number

def print (tm : Tm) : Conversion → Bytes
  | Y => asString (get tm Y)
  | c => twoDigits (get tm c)

def read (c : Conversion) (s : Bytes) : Option (Nat × Bytes) :=
  Numeral.read isSpace c.lower c.upper c.width s

end Conversion

namespace Format

def text : Format → Bytes
  | [] => []
  | .literal c :: format => c :: text format
  | .conversion c :: format => 37 :: c.letter :: text format

def print (tm : Tm) : Format → Bytes
  | [] => []
  | .literal c :: format => c :: print tm format
  | .conversion c :: format => c.print tm ++ print tm format

end Format

/-- What is written into `max` bytes: nothing if the text and its NUL do not fit. -/
def strftime (max : Nat) (format : Format) (tm : Tm) : Bytes :=
  if (format.print tm).length < max then format.print tm else []

/-- The fields that were read, and the rest of the text. -/
def strptime : (s : Bytes) → Format → Tm → Option (Tm × Bytes)
  | s, [], tm => some (tm, s)
  | s, .literal c :: format, tm =>
    if isSpace c then strptime (s.dropWhile isSpace) format tm
    else match s with
      | [] => none
      | d :: s => if d = c then strptime s format tm else none
  | s, .conversion c :: format, tm =>
    match c.read s with
    | none => none
    | some (value, s) => strptime s format (c.set tm value)

namespace AsString

def seconds (value : Int64) : Bytes := asString value.toInt ++ text " sec"

def apply (zone : Zone) (value : Int64) (format : Format) : Except RuntimeException Bytes :=
  match zone.localtime value with
  | none => .error ⟨seconds value ++ text " is a bad time"⟩
  | some tt =>
    let aux := strftime 64 format tt
    if aux = [] then .error ⟨seconds value ++ text "is a bad date"⟩ else .ok aux

end AsString

end Coffee.Basis
