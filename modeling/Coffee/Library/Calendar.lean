import Mathlib.Algebra.Order.Group.Int
import Mathlib.Data.List.Basic
import Mathlib.Algebra.Ring.Nat

/-! # The Gregorian calendar

Days are counted from 1 January of year 0, and the calendar is extended to both sides of it. Months
begin at 0, days at 1. A date is written from a day number and read back through it.
-/

namespace Coffee.Library.Calendar

structure Date where
  year : Int
  month : Nat
  day : Nat
deriving DecidableEq, Repr

def isLeap (year : Int) : Bool := year % 4 = 0 && (year % 100 ≠ 0 || year % 400 = 0)

/-- The day number of 1 January: a leap day for each fourth year in front of it, but three in four
hundred. -/
def yearStart (year : Int) : Int :=
  365 * year + (year + 3) / 4 - (year + 99) / 100 + (year + 399) / 400

def monthLengths (leap : Bool) : List Nat :=
  [31, if leap then 29 else 28, 31, 30, 31, 30, 31, 31, 30, 31, 30, 31]

/-- The part that an offset falls into, and the offset in it. -/
def locate : List Nat → Nat → Nat × Nat
  | [], n => (0, n)
  | length :: lengths, n =>
    if n < length then (0, n)
    else ((locate lengths (n - length)).1 + 1, (locate lengths (n - length)).2)

/-- The mean year has 146097 / 400 days; the estimate is wrong by one year at most. -/
def yearOf (n : Int) : Int :=
  let year := n * 400 / 146097
  if n < yearStart year then year - 1
  else if yearStart (year + 1) ≤ n then year + 1
  else year

def ofDayNumber (n : Int) : Date :=
  let year := yearOf n
  let place := locate (monthLengths (isLeap year)) (n - yearStart year).toNat
  ⟨year, place.1, place.2 + 1⟩

def dayNumber (year : Int) (month : Nat) (day : Int) : Int :=
  yearStart year + ((monthLengths (isLeap year)).take month).sum + day - 1

theorem sum_take_locate (lengths : List Nat) (n : Nat) :
    (lengths.take (locate lengths n).1).sum + (locate lengths n).2 = n := by
  induction lengths generalizing n with
  | nil => simp [locate]
  | cons length lengths ih =>
    rw [locate]
    split
    · simp
    · have hrest := ih (n - length)
      rw [List.take_succ_cons, List.sum_cons]
      omega

theorem locate_lt {lengths : List Nat} {n : Nat} (h : n < lengths.sum) :
    ∃ hlt : (locate lengths n).1 < lengths.length,
      (locate lengths n).2 < lengths[(locate lengths n).1] := by
  induction lengths generalizing n with
  | nil => cases h
  | cons length lengths ih =>
    rw [List.sum_cons] at h
    unfold locate
    split
    · next hlt => exact ⟨by simp, hlt⟩
    · obtain ⟨hlt, hin⟩ := @ih (n - length) (by omega)
      exact ⟨by simpa using hlt, by simpa using hin⟩

theorem sum_monthLengths (leap : Bool) :
    (monthLengths leap).sum = if leap then 366 else 365 := by
  cases leap <;> rfl

theorem monthLengths_le {leap : Bool} {length : Nat} (h : length ∈ monthLengths leap) :
    length ≤ 31 := by
  cases leap <;> revert length <;> decide

theorem yearStart_succ (year : Int) :
    yearStart (year + 1) = yearStart year + (monthLengths (isLeap year)).sum := by
  rw [sum_monthLengths]
  unfold yearStart isLeap
  split <;> simp_all <;> omega

theorem yearStart_le_yearStart {year year' : Int} (h : year ≤ year') :
    yearStart year ≤ yearStart year' := by
  unfold yearStart
  omega

theorem yearStart_yearOf (n : Int) : yearStart (yearOf n) ≤ n ∧ n < yearStart (yearOf n + 1) := by
  have hestimate : yearStart (n * 400 / 146097 - 1) ≤ n ∧
      n < yearStart (n * 400 / 146097 + 1 + 1) := by
    unfold yearStart
    omega
  unfold yearOf
  dsimp only
  split
  · next hlt =>
    rw [Int.sub_add_cancel]
    exact ⟨hestimate.1, hlt⟩
  · next hle =>
    split
    · next hnext => exact ⟨hnext, hestimate.2⟩
    · next hnext => exact ⟨Int.not_lt.mp hle, Int.not_le.mp hnext⟩

theorem le_yearOf_iff {year n : Int} : year ≤ yearOf n ↔ yearStart year ≤ n := by
  obtain ⟨hle, hlt⟩ := yearStart_yearOf n
  constructor
  · intro h
    exact Int.le_trans (yearStart_le_yearStart h) hle
  · intro h
    by_contra hyear
    have hnext := yearStart_le_yearStart (show yearOf n + 1 ≤ year by omega)
    omega

theorem dayOfYear_lt (n : Int) :
    (n - yearStart (yearOf n)).toNat < (monthLengths (isLeap (yearOf n))).sum := by
  obtain ⟨hle, hlt⟩ := yearStart_yearOf n
  rw [yearStart_succ] at hlt
  omega

theorem ofDayNumber_month_lt (n : Int) : (ofDayNumber n).month < 12 := by
  obtain ⟨hlt, -⟩ := locate_lt (dayOfYear_lt n)
  exact hlt

theorem ofDayNumber_year (n : Int) : (ofDayNumber n).year = yearOf n := rfl

theorem ofDayNumber_day_pos (n : Int) : 0 < (ofDayNumber n).day := Nat.succ_pos _

theorem ofDayNumber_day_le (n : Int) : (ofDayNumber n).day ≤ 31 := by
  obtain ⟨hlt, hin⟩ := locate_lt (dayOfYear_lt n)
  exact Nat.le_trans hin (monthLengths_le (List.getElem_mem hlt))

theorem dayNumber_ofDayNumber (n : Int) :
    dayNumber (ofDayNumber n).year (ofDayNumber n).month (ofDayNumber n).day = n := by
  have hsum := sum_take_locate (monthLengths (isLeap (yearOf n))) (n - yearStart (yearOf n)).toNat
  have hle := (yearStart_yearOf n).1
  unfold dayNumber ofDayNumber
  dsimp only
  omega

end Coffee.Library.Calendar
