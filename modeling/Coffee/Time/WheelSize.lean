import Coffee.Library.FixedWidth
import Coffee.Time.TimeService

/-! # The size of the timing wheel

The constructor of `TimeService` computes the size of the wheel before anything checks the times that
it is computed from. `none` stands for undefined behaviour: a division by zero, or an operation of a
signed type whose result does not fit.
-/

namespace Coffee.Time.WheelSize

open Coffee.Library

/-- `maxTime.count() / resolution.count()` -/
def divide (maxTime resolution : Int) : Option Int :=
  if resolution = 0 then none else IntegerType.int64.checked (maxTime.tdiv resolution)

/-- The loop of `calculeMaxQuantum`: the product is one of milliseconds, the result an `int`. -/
def roundUp (maxTime resolution result : Int) : Option Int :=
  if ¬ IntegerType.int64.Fits (result * resolution) then none
  else if result * resolution < maxTime then
    if result < 2 ^ 31 - 1 then roundUp maxTime resolution (result + 1) else none
  else some result
termination_by (2 ^ 31 - result).toNat

def calculeMaxQuantum (maxTime resolution : Int) : Option Int := do
  let quotient ← divide maxTime resolution
  roundUp maxTime resolution (IntegerType.int.wrap quotient)

def Accepts (maxTime resolution timeout : Int) : Prop :=
  timeout ≠ 0 ∧ ¬ (timeout > maxTime ∨ timeout < resolution)

def nextQuantum (maxQuantum currentQuantum : Int) : Int :=
  if currentQuantum + 1 = maxQuantum then 0 else currentQuantum + 1

/-- The slot to which `store` links an event. -/
def indexQuantum (maxQuantum resolution currentQuantum timeout : Int) : Int :=
  IntegerType.int.wrap ((currentQuantum + timeout.tdiv resolution).tmod maxQuantum)

def ceilDiv (a b : Int) : Int := -(-a).fdiv b

/-- The size is the quotient rounded up, it is positive, and the slots of all timeouts that are
accepted are inside the wheel. -/
structure Sized (maxTime resolution maxQuantum : Int) : Prop where
  calculated : calculeMaxQuantum maxTime resolution = some maxQuantum
  kept : IntegerType.int.wrap (maxTime.tdiv resolution) = maxTime.tdiv resolution
  rounded : maxQuantum = ceilDiv maxTime resolution
  positive : 1 ≤ maxQuantum
  quanta : ∀ timeout : Int64, Accepts maxTime resolution timeout.toInt →
    1 ≤ timeout.toInt.tdiv resolution ∧ timeout.toInt.tdiv resolution ≤ maxQuantum
  inside : ∀ timeout : Int64, Accepts maxTime resolution timeout.toInt → ∀ ticks,
    0 ≤ indexQuantum maxQuantum resolution ((nextQuantum maxQuantum)^[ticks] 0) timeout.toInt ∧
      indexQuantum maxQuantum resolution ((nextQuantum maxQuantum)^[ticks] 0) timeout.toInt <
        maxQuantum

/-- Both times are positive, and the size and its product with the resolution do not overflow, or both
are negative and the quotient is exact. -/
def Regular (maxTime resolution : Int) : Prop :=
  0 < resolution ∧ 0 < maxTime ∧ ceilDiv maxTime resolution < 2 ^ 31 ∧
      ceilDiv maxTime resolution * resolution < 2 ^ 63 ∨
    resolution < 0 ∧ maxTime < 0 ∧ resolution ∣ maxTime ∧ ceilDiv maxTime resolution < 2 ^ 31

instance (maxTime resolution : Int) : Decidable (Regular maxTime resolution) :=
  inferInstanceAs (Decidable (_ ∨ _))

theorem ceilDiv_of_pos {a b : Int} (hb : 0 < b) : ceilDiv a b = -(-a / b) := by
  rw [ceilDiv, Int.fdiv_eq_ediv_of_nonneg _ (Int.le_of_lt hb)]

theorem ceilDiv_neg_neg (a b : Int) : ceilDiv (-a) (-b) = ceilDiv a b := by
  rw [ceilDiv, ceilDiv, ← Int.neg_fdiv_neg (-a) b]

theorem ceilDiv_le_iff {a b c : Int} (hb : 0 < b) : ceilDiv a b ≤ c ↔ a ≤ c * b := by
  have hneg : -c ≤ -a / b ↔ -c * b ≤ -a := Int.le_ediv_iff_mul_le hb
  rw [Int.neg_mul] at hneg
  rw [ceilDiv_of_pos hb]
  omega

theorem le_ceilDiv_mul (a : Int) {b : Int} (hb : 0 < b) : a ≤ ceilDiv a b * b :=
  (ceilDiv_le_iff hb).mp (Int.le_refl _)

theorem ediv_le_ceilDiv (a : Int) {b : Int} (hb : 0 < b) : a / b ≤ ceilDiv a b :=
  Int.ediv_le_of_le_mul hb (le_ceilDiv_mul a hb)

theorem ceilDiv_eq_ediv_iff {a b : Int} (hb : 0 < b) : ceilDiv a b = a / b ↔ b ∣ a := by
  have hle : a / b * b ≤ a := Int.ediv_mul_le a (Int.ne_of_gt hb)
  have hquotient := ediv_le_ceilDiv a hb
  constructor
  · intro heq
    have hge := le_ceilDiv_mul a hb
    rw [heq] at hge
    exact Dvd.intro_left _ (Int.le_antisymm hle hge)
  · intro hdvd
    refine Int.le_antisymm ((ceilDiv_le_iff hb).mpr ?_) hquotient
    rw [Int.ediv_mul_cancel hdvd]

/-- Rounding up takes one step, unless the quotient is exact. -/
theorem ceilDiv_cases (a : Int) {b : Int} (hb : 0 < b) :
    a / b * b < a ∧ ceilDiv a b = a / b + 1 ∨ a ≤ a / b * b ∧ ceilDiv a b = a / b := by
  rcases Int.lt_or_le (a / b * b) a with hless | hge
  · have hstrict : a / b < ceilDiv a b := by
      refine Int.not_le.mp fun hnot => ?_
      exact Int.not_le.mpr hless ((ceilDiv_le_iff hb).mp hnot)
    refine Or.inl ⟨hless, Int.le_antisymm ((ceilDiv_le_iff hb).mpr ?_) hstrict⟩
    exact Int.le_of_lt (Int.lt_ediv_add_one_mul_self a hb)
  · exact Or.inr ⟨hge, Int.le_antisymm ((ceilDiv_le_iff hb).mpr hge) (ediv_le_ceilDiv a hb)⟩

/-- A quotient that rounds up to a positive number has a sign above and below, and the same. -/
theorem signs_of_ceilDiv {a b : Int} (h : 1 ≤ ceilDiv a b) : 0 < b ∧ 0 < a ∨ b < 0 ∧ a < 0 := by
  rcases Int.lt_trichotomy b 0 with hneg | rfl | hpos
  · rw [← ceilDiv_neg_neg] at h
    have hnot := (ceilDiv_le_iff (a := -a) (c := 0) (Int.neg_pos_of_neg hneg)).not
    omega
  · rw [ceilDiv, Int.fdiv_zero] at h
    omega
  · have hnot := (ceilDiv_le_iff (a := a) (c := 0) hpos).not
    omega

variable {maxTime resolution result maxQuantum : Int}

theorem roundUp_of_le (hfits : IntegerType.int64.Fits (result * resolution))
    (h : maxTime ≤ result * resolution) : roundUp maxTime resolution result = some result := by
  rw [roundUp, if_neg (not_not.mpr hfits), if_neg (Int.not_lt.mpr h)]

theorem roundUp_of_lt (hfits : IntegerType.int64.Fits (result * resolution))
    (h : result * resolution < maxTime) (hresult : result < 2 ^ 31 - 1) :
    roundUp maxTime resolution result = roundUp maxTime resolution (result + 1) := by
  rw [roundUp, if_neg (not_not.mpr hfits), if_pos h, if_pos hresult]

theorem roundUp_bounds (hresult : result < 2 ^ 31)
    (h : roundUp maxTime resolution result = some maxQuantum) :
    maxQuantum < 2 ^ 31 ∧ IntegerType.int64.Fits (maxQuantum * resolution) := by
  fun_induction roundUp maxTime resolution result with
  | case1 result hnot => cases h
  | case2 result hfits hless hint ih => exact ih (by omega) h
  | case3 result hfits hless hint => cases h
  | case4 result hfits hless =>
    cases h
    exact ⟨hresult, not_not.mp hfits⟩

theorem calculeMaxQuantum_eq (hresolution : resolution ≠ 0)
    (hfits : IntegerType.int64.Fits (maxTime.tdiv resolution)) :
    calculeMaxQuantum maxTime resolution =
      roundUp maxTime resolution (IntegerType.int.wrap (maxTime.tdiv resolution)) := by
  rw [calculeMaxQuantum, divide, if_neg hresolution, IntegerType.checked_of_fits hfits]
  rfl

theorem calculeMaxQuantum_bounds (h : calculeMaxQuantum maxTime resolution = some maxQuantum) :
    maxQuantum < 2 ^ 31 ∧ IntegerType.int64.Fits (maxQuantum * resolution) := by
  obtain ⟨quotient, -, hround⟩ := Option.bind_eq_some_iff.mp h
  have hwrap := IntegerType.int_fits_iff.mp (IntegerType.fits_wrap (T := IntegerType.int) quotient)
  exact roundUp_bounds hwrap.2 hround

theorem calculeMaxQuantum_of_pos (hresolution : 0 < resolution) (hmaxTime : 0 < maxTime)
    (hsize : ceilDiv maxTime resolution < 2 ^ 31)
    (hproduct : ceilDiv maxTime resolution * resolution < 2 ^ 63) :
    calculeMaxQuantum maxTime resolution = some (ceilDiv maxTime resolution) := by
  have hquotient : maxTime.tdiv resolution = maxTime / resolution :=
    Int.tdiv_eq_ediv_of_nonneg (Int.le_of_lt hmaxTime)
  have hnonneg : 0 ≤ maxTime / resolution :=
    Int.ediv_nonneg (Int.le_of_lt hmaxTime) (Int.le_of_lt hresolution)
  have hle : maxTime / resolution * resolution ≤ maxTime :=
    Int.ediv_mul_le maxTime (Int.ne_of_gt hresolution)
  have hpos : 0 ≤ maxTime / resolution * resolution :=
    Int.mul_nonneg hnonneg (Int.le_of_lt hresolution)
  have hceil := ediv_le_ceilDiv maxTime hresolution
  have hmul := le_ceilDiv_mul maxTime hresolution
  have hself := Int.ediv_le_self resolution (Int.le_of_lt hmaxTime)
  have hfits : IntegerType.int64.Fits (maxTime / resolution * resolution) :=
    IntegerType.int64_fits_iff.mpr ⟨by omega, by omega⟩
  rw [calculeMaxQuantum_eq (Int.ne_of_gt hresolution)
    (hquotient ▸ IntegerType.int64_fits_iff.mpr ⟨by omega, by omega⟩), hquotient,
    IntegerType.wrap_of_fits (IntegerType.int_fits_iff.mpr ⟨by omega, by omega⟩)]
  rcases ceilDiv_cases maxTime hresolution with ⟨hless, hnext⟩ | ⟨hge, hexact⟩
  · rw [roundUp_of_lt hfits hless (by omega), ← hnext]
    exact roundUp_of_le (IntegerType.int64_fits_iff.mpr ⟨by omega, hproduct⟩) hmul
  · rw [hexact]
    exact roundUp_of_le hfits hge

theorem roundUp_of_ge (fuel : Nat) (h : maxTime ≤ result * resolution) :
    Time.roundUp maxTime resolution fuel result = result := by
  cases fuel with
  | zero => rfl
  | succ fuel => rw [Time.roundUp, if_neg (Int.not_lt.mpr h)]

/-- A wheel of positive times whose size does not overflow has the size of exact arithmetic. -/
theorem calculeMaxQuantum_settings (settings : Settings)
    (h : Regular settings.maxTime settings.resolution) :
    calculeMaxQuantum settings.maxTime settings.resolution =
      some (Time.calculeMaxQuantum settings.maxTime settings.resolution) := by
  have hresolution := settings.resolution_pos
  have hless := settings.resolution_lt
  obtain ⟨-, hmaxTime, hsize, hproduct⟩ := h.resolve_right fun hneg => by omega
  rw [calculeMaxQuantum_of_pos hresolution hmaxTime hsize hproduct, Time.calculeMaxQuantum]
  obtain ⟨fuel, hfuel⟩ := Nat.exists_eq_add_one.mpr (Int.pos_iff_toNat_pos.mp hmaxTime)
  rw [hfuel, Time.roundUp]
  have hmul := le_ceilDiv_mul settings.maxTime hresolution
  rcases ceilDiv_cases settings.maxTime hresolution with ⟨hround, hnext⟩ | ⟨hge, hexact⟩
  · rw [if_pos hround, ← hnext, roundUp_of_ge fuel hmul]
  · rw [if_neg (Int.not_lt.mpr hge), hexact]

theorem calculeMaxQuantum_of_neg (hresolution : resolution < 0) (hmaxTime : maxTime < 0)
    (hmin : -2 ^ 63 ≤ maxTime) (hsize : maxTime.tdiv resolution < 2 ^ 31) :
    calculeMaxQuantum maxTime resolution = some (maxTime.tdiv resolution) := by
  have hnonneg : 0 ≤ maxTime.tdiv resolution :=
    Int.tdiv_nonneg_of_nonpos_of_nonpos (Int.le_of_lt hmaxTime) (Int.le_of_lt hresolution)
  have hquotient : maxTime.tdiv resolution = -maxTime / -resolution := by
    rw [← Int.neg_tdiv_neg, Int.tdiv_eq_ediv_of_nonneg (by omega)]
  have hle : -maxTime / -resolution * -resolution ≤ -maxTime :=
    Int.ediv_mul_le (-maxTime) (by omega)
  rw [← hquotient, Int.mul_neg] at hle
  have hneg : maxTime.tdiv resolution * resolution ≤ 0 :=
    Int.mul_nonpos_of_nonneg_of_nonpos hnonneg (Int.le_of_lt hresolution)
  rw [calculeMaxQuantum_eq (Int.ne_of_lt hresolution)
    (IntegerType.int64_fits_iff.mpr ⟨by omega, by omega⟩),
    IntegerType.wrap_of_fits (IntegerType.int_fits_iff.mpr ⟨by omega, hsize⟩)]
  exact roundUp_of_le (IntegerType.int64_fits_iff.mpr ⟨by omega, by omega⟩) (by omega)

theorem ceilDiv_eq_tdiv_iff (hresolution : resolution < 0) (hmaxTime : maxTime < 0) :
    ceilDiv maxTime resolution = maxTime.tdiv resolution ↔ resolution ∣ maxTime := by
  rw [← ceilDiv_neg_neg, ← Int.neg_tdiv_neg, Int.tdiv_eq_ediv_of_nonneg (by omega),
    ceilDiv_eq_ediv_iff (by omega), Int.neg_dvd, Int.dvd_neg]

/-! ## The timeouts -/

theorem nextQuantum_mem (hpos : 1 ≤ maxQuantum) (ticks : Nat) :
    0 ≤ (nextQuantum maxQuantum)^[ticks] 0 ∧ (nextQuantum maxQuantum)^[ticks] 0 < maxQuantum := by
  induction ticks with
  | zero => exact ⟨Int.le_refl 0, hpos⟩
  | succ ticks ih =>
    rw [Function.iterate_succ_apply', nextQuantum]
    split
    · exact ⟨Int.le_refl 0, hpos⟩
    · omega

theorem indexQuantum_mem {currentQuantum timeout : Int} (hpos : 1 ≤ maxQuantum)
    (hsize : maxQuantum < 2 ^ 31) (hcurrent : 0 ≤ currentQuantum)
    (htimeout : 1 ≤ timeout.tdiv resolution) :
    0 ≤ indexQuantum maxQuantum resolution currentQuantum timeout ∧
      indexQuantum maxQuantum resolution currentQuantum timeout < maxQuantum := by
  have hlower := Int.tmod_nonneg maxQuantum (a := currentQuantum + timeout.tdiv resolution) (by omega)
  have hupper := Int.tmod_lt_of_pos (currentQuantum + timeout.tdiv resolution)
    (b := maxQuantum) (by omega)
  rw [indexQuantum, IntegerType.wrap_of_fits (IntegerType.int_fits_iff.mpr ⟨by omega, by omega⟩)]
  exact ⟨hlower, hupper⟩

theorem one_le_ceilDiv (h : Regular maxTime resolution) : 1 ≤ ceilDiv maxTime resolution := by
  rcases h with ⟨hresolution, hmaxTime, -, -⟩ | ⟨hresolution, hmaxTime, -, -⟩
  · have hnot := (ceilDiv_le_iff (a := maxTime) (c := 0) hresolution).not
    omega
  · rw [← ceilDiv_neg_neg]
    have hnot := (ceilDiv_le_iff (a := -maxTime) (c := 0) (Int.neg_pos_of_neg hresolution)).not
    omega

theorem quanta_mem {timeout : Int} (h : Regular maxTime resolution)
    (haccepts : Accepts maxTime resolution timeout) :
    1 ≤ timeout.tdiv resolution ∧ timeout.tdiv resolution ≤ ceilDiv maxTime resolution := by
  have hpositive := one_le_ceilDiv h
  obtain ⟨-, hrange⟩ := haccepts
  obtain ⟨hupper, hlower⟩ := not_or.mp hrange
  rcases h with ⟨hresolution, -, -, -⟩ | ⟨hresolution, hmaxTime, hdvd, -⟩
  · rw [Int.tdiv_eq_ediv_of_nonneg (by omega)]
    refine ⟨(Int.le_ediv_iff_mul_le hresolution).mpr (by omega), ?_⟩
    exact Int.ediv_le_of_le_mul hresolution
      (Int.le_trans (Int.not_lt.mp hupper) (le_ceilDiv_mul maxTime hresolution))
  · obtain ⟨factor, rfl⟩ := hdvd
    have hfactor : 1 ≤ factor := by
      refine Int.not_lt.mp fun hless => ?_
      have hnonneg := Int.mul_nonneg_of_nonpos_of_nonpos (Int.le_of_lt hresolution)
        (Int.le_of_lt_add_one hless)
      omega
    have hle := Int.mul_le_mul_of_nonpos_left (Int.le_of_lt hresolution) hfactor
    obtain rfl : timeout = resolution := by omega
    rw [Int.tdiv_self (Int.ne_of_lt hresolution)]
    exact ⟨Int.le_refl 1, hpositive⟩

/-- The constructor sizes the wheel right just when the times are regular. -/
theorem exists_sized_iff (maxTime resolution : Int64) :
    (∃ maxQuantum, Sized maxTime.toInt resolution.toInt maxQuantum) ↔
      Regular maxTime.toInt resolution.toInt := by
  have hmin := maxTime.le_toInt
  constructor
  · rintro ⟨maxQuantum, hcalculated, hkept, rfl, hpositive, -, -⟩
    obtain ⟨hsize, hfits⟩ := calculeMaxQuantum_bounds hcalculated
    rcases signs_of_ceilDiv hpositive with ⟨hresolution, hmaxTime⟩ | ⟨hresolution, hmaxTime⟩
    · exact Or.inl ⟨hresolution, hmaxTime, hsize, (IntegerType.int64_fits_iff.mp hfits).2⟩
    · have hquotient := IntegerType.int_fits_iff.mp (IntegerType.wrap_eq_self_iff.mp hkept)
      rw [calculeMaxQuantum_of_neg hresolution hmaxTime hmin hquotient.2] at hcalculated
      have hdvd := (ceilDiv_eq_tdiv_iff hresolution hmaxTime).mp (Option.some.inj hcalculated).symm
      exact Or.inr ⟨hresolution, hmaxTime, hdvd, hsize⟩
  · intro h
    have hpositive := one_le_ceilDiv h
    have hcalculated : calculeMaxQuantum maxTime.toInt resolution.toInt =
        some (ceilDiv maxTime.toInt resolution.toInt) ∧
          IntegerType.int.Fits (maxTime.toInt.tdiv resolution.toInt) := by
      rcases h with ⟨hresolution, hmaxTime, hsize, hproduct⟩ | ⟨hresolution, hmaxTime, hdvd, hsize⟩
      · refine ⟨calculeMaxQuantum_of_pos hresolution hmaxTime hsize hproduct, ?_⟩
        have hle := ediv_le_ceilDiv maxTime.toInt hresolution
        have hnonneg := Int.ediv_nonneg (Int.le_of_lt hmaxTime) (Int.le_of_lt hresolution)
        rw [Int.tdiv_eq_ediv_of_nonneg (Int.le_of_lt hmaxTime)]
        exact IntegerType.int_fits_iff.mpr ⟨by omega, by omega⟩
      · have hexact := (ceilDiv_eq_tdiv_iff hresolution hmaxTime).mpr hdvd
        rw [hexact] at hsize hpositive ⊢
        exact ⟨calculeMaxQuantum_of_neg hresolution hmaxTime hmin hsize,
          IntegerType.int_fits_iff.mpr ⟨by omega, hsize⟩⟩
    have hsize := (calculeMaxQuantum_bounds hcalculated.1).1
    refine ⟨_, hcalculated.1, IntegerType.wrap_of_fits hcalculated.2, rfl, hpositive,
      fun timeout haccepts => quanta_mem h haccepts, fun timeout haccepts ticks => ?_⟩
    exact indexQuantum_mem hpositive hsize (nextQuantum_mem hpositive ticks).1
      (quanta_mem h haccepts).1

/-- A resolution of zero divides by zero before it is looked at. -/
theorem not_sized : ¬ ∀ maxTime resolution : Int64,
    ∃ maxQuantum, Sized maxTime.toInt resolution.toInt maxQuantum := by
  intro hall
  obtain ⟨maxQuantum, hsized⟩ := hall 100 0
  have hnone : calculeMaxQuantum (100 : Int64).toInt (0 : Int64).toInt = none := rfl
  have hcalculated := hsized.calculated
  rw [hnone] at hcalculated
  cases hcalculated

end Coffee.Time.WheelSize
