import Coffee.Library.FixedWidth
import Coffee.Library.Runs
import Mathlib.Algebra.BigOperators.Group.List.Basic
import Mathlib.Algebra.Ring.Int.Defs

/-! # Averages

An average keeps the sum of its values and their number. An addition that makes the sum smaller
passes for an overflow and starts anew, and so does a removal that would not leave a positive sum.
-/

namespace Coffee.Basis

open Coffee.Library

structure Average where
  a_accumulator : Int
  a_n : UInt32
deriving DecidableEq, Repr

namespace Average

def instantiate : Average := ⟨0, 0⟩

def isEmpty (average : Average) : Bool := average.a_n == 0

def size (average : Average) : Int := IntegerType.int.wrap average.a_n.toNat

def getAccumulator (average : Average) : Int := average.a_accumulator

/-- The number of values is unsigned, and so is the sum that is divided by it, unless the type of the
values is wider than the number. -/
def value (T : IntegerType) (average : Average) : Int :=
  if average.isEmpty then 0
  else if T.bits ≤ 32 then
    T.wrap (IntegerType.unsignedInt.wrap average.a_accumulator / average.a_n.toNat)
  else T.wrap (average.a_accumulator.tdiv average.a_n.toNat)

def add (T : IntegerType) (average : Average) (v : Int) : Average :=
  let sum := T.wrap (average.a_accumulator + v)
  if sum < average.a_accumulator then ⟨v, 1⟩ else ⟨sum, average.a_n + 1⟩

def sub (T : IntegerType) (average : Average) (v : Int) : Average :=
  if average.a_accumulator > v ∧ average.a_n > 1 then
    ⟨T.wrap (average.a_accumulator - v), average.a_n - 1⟩
  else ⟨0, 0⟩

end Average

inductive Update where
  | add (v : Int)
  | sub (v : Int)
deriving DecidableEq, Repr

namespace Update

def apply (T : IntegerType) (average : Average) : Update → Average
  | .add v => average.add T v
  | .sub v => average.sub T v

/-- The values that were added and not removed. -/
def remaining (values : List Int) : Update → List Int
  | .add v => v :: values
  | .sub v => values.erase v

/-- Only what was added is removed, and the exact sum fits. -/
def Legal (T : IntegerType) (values : List Int) (update : Update) : Prop :=
  T.Fits (update.remaining values).sum ∧ match update with
    | .add v => T.Fits v
    | .sub v => v ∈ values

end Update

namespace Average

/-- Dividing the sum by an unsigned number gives the quotient: the type is wider than the number, the
sum has no sign, or the difference that the sign makes is lost in the type. -/
def Divisible (T : IntegerType) (sum : Int) (number : Nat) : Prop :=
  32 < T.bits ∨ 0 ≤ sum ∨
    (2 : Int) ^ T.bits ∣ 2 ^ 32 / number - if -sum % number ≤ 2 ^ 32 % number then 0 else 1

/-- A value is added that is not negative, unless it is the first, and one is removed that is less
than the sum, unless it is the last. -/
def Accountable (T : IntegerType) (values : List Int) : Update → Prop
  | .add v => (0 ≤ v ∨ values = []) ∧ values.length + 1 < 2 ^ 31 ∧
      Divisible T (v + values.sum) (values.length + 1)
  | .sub v => v < values.sum ∨ values.length = 1

structure Exact (T : IntegerType) (average : Average) (values : List Int) : Prop where
  getAccumulator : average.getAccumulator = values.sum
  size : average.size = values.length
  value : average.value T = values.sum.tdiv values.length

/-- The sum and the number are those of the values. -/
structure Tallies (T : IntegerType) (average : Average) (values : List Int) : Prop where
  sum : average.a_accumulator = values.sum
  number : average.a_n.toNat = values.length
  fits : T.Fits values.sum

/-- For an `int` the sum has no sign, or there is a single value. -/
theorem divisible_int_iff {sum : Int} {number : Nat} (hpos : 0 < number)
    (hnumber : number < 2 ^ 31) :
    Divisible IntegerType.int sum number ↔ 0 ≤ sum ∨ number = 1 := by
  have hbits : IntegerType.int.bits = 32 := rfl
  rw [Divisible, hbits, or_iff_right (by decide)]
  refine or_congr_right ?_
  rcases Nat.lt_or_ge 1 number with hlarge | hsmall
  · refine iff_of_false (fun hdvd => ?_) (by omega)
    have hlower : 2 ≤ (2 : Int) ^ 32 / number :=
      (Int.le_ediv_iff_mul_le (by omega)).mpr (by omega)
    have hupper : (2 : Int) ^ 32 / number ≤ 2 ^ 31 :=
      Int.ediv_le_of_le_mul (by omega) (by omega)
    have hle := Int.le_of_dvd (by split <;> omega) hdvd
    split at hle
    · omega
    · omega
  · obtain rfl : number = 1 := by omega
    refine iff_of_true ?_ rfl
    simp

variable {T : IntegerType} {average : Average} {values : List Int}

theorem unsigned_value (hbits : T.bits ≤ 32) (hfits : T.Fits average.a_accumulator) :
    -2 ^ 32 ≤ average.a_accumulator ∧ average.a_accumulator < 2 ^ 32 := by
  have hbounds := hfits.bounds
  have hpow : (2 : Int) ^ T.bits ≤ 2 ^ 32 := by
    exact_mod_cast Nat.pow_le_pow_right (by decide : 0 < 2) hbits
  omega

/-- The value is the quotient just when the sum is divisible. -/
theorem value_eq_iff (hfits : T.Fits average.a_accumulator) (hn : average.a_n ≠ 0) :
    average.value T = average.a_accumulator.tdiv average.a_n.toNat ↔
      Divisible T average.a_accumulator average.a_n.toNat := by
  have hpos : (0 : Int) < average.a_n.toNat := by
    have hne : average.a_n.toNat ≠ 0 := fun h => hn (UInt32.toNat_inj.mp h)
    omega
  have hempty : average.isEmpty = false := by simpa [isEmpty] using hn
  have hquotient := hfits.tdiv average.a_n.toNat
  unfold value Divisible
  rw [hempty, if_neg (by simp), IntegerType.unsignedInt_wrap]
  by_cases hbits : T.bits ≤ 32
  · obtain ⟨hlower, hupper⟩ := unsigned_value hbits hfits
    rw [if_pos hbits, or_iff_right (by omega), IntegerType.wrap_eq_iff hquotient]
    rcases Int.lt_or_le average.a_accumulator 0 with hneg | hnonneg
    · rw [or_iff_right (by omega), IntegerType.emod_ediv_sub_tdiv hpos hneg hlower]
    · rw [Int.emod_eq_of_lt hnonneg hupper, Int.tdiv_eq_ediv_of_nonneg hnonneg, Int.sub_self]
      exact iff_of_true (Int.dvd_zero _) (Or.inl hnonneg)
  · rw [if_neg hbits, IntegerType.wrap_of_fits hquotient]
    exact iff_of_true rfl (Or.inl (by omega))

theorem size_eq_iff {number : Nat} (hnumber : average.a_n.toNat = number) :
    average.size = number ↔ number < 2 ^ 31 := by
  have hlt := UInt32.toNat_lt average.a_n
  rw [size, hnumber, IntegerType.wrap_eq_self_iff, IntegerType.int_fits_iff]
  omega

/-- What the average returns is right just when the number has no sign bit and the sum is divisible. -/
theorem Tallies.exact_iff (h : Tallies T average values) :
    Exact T average values ↔ values.length < 2 ^ 31 ∧ Divisible T values.sum values.length := by
  have hvalue : average.value T = values.sum.tdiv values.length ↔
      Divisible T values.sum values.length := by
    by_cases hn : average.a_n = 0
    · have hnil : values = [] := by
        have hlength := h.number
        rw [hn] at hlength
        exact List.length_eq_zero_iff.mp hlength.symm
      subst hnil
      refine iff_of_true ?_ (Or.inr (Or.inl (Int.le_refl 0)))
      rw [value, isEmpty, hn]
      rfl
    · rw [← h.sum, ← h.number]
      exact value_eq_iff (h.sum ▸ h.fits) hn
  constructor
  · rintro ⟨-, hsize, hquotient⟩
    exact ⟨(size_eq_iff h.number).mp hsize, hvalue.mp hquotient⟩
  · rintro ⟨hlength, hdivisible⟩
    exact ⟨h.sum, (size_eq_iff h.number).mpr hlength, hvalue.mpr hdivisible⟩

theorem tallies_instantiate (T : IntegerType) : Tallies T instantiate [] := ⟨rfl, rfl, T.fits_zero⟩

theorem exact_instantiate (T : IntegerType) : Exact T instantiate [] :=
  (tallies_instantiate T).exact_iff.mpr ⟨by decide, Or.inr (Or.inl (Int.le_refl 0))⟩

theorem Tallies.add (h : Tallies T average values) (hlength : values.length < 2 ^ 31) {v : Int}
    (hfits : T.Fits (v :: values).sum) (hv : 0 ≤ v ∨ values = []) :
    Tallies T (average.add T v) (v :: values) := by
  have hsum : average.a_accumulator + v = (v :: values).sum := by
    rw [h.sum, List.sum_cons, Int.add_comm]
  rw [Average.add, hsum, IntegerType.wrap_of_fits hfits]
  split
  · next hless =>
    have hnil : values = [] := by
      rcases hv with hv | hnil
      · omega
      · exact hnil
    subst hnil
    exact ⟨by simp, rfl, hfits⟩
  · refine ⟨rfl, ?_, hfits⟩
    rw [UInt32.toNat_add, h.number, List.length_cons]
    exact Nat.mod_eq_of_lt (by simp; omega)

/-- A negative value makes the average start anew. -/
theorem Tallies.add_breaks (h : Tallies T average values) {v : Int}
    (hfits : T.Fits (v :: values).sum) (hv : v < 0) (hne : values ≠ []) :
    ¬ Exact T (average.add T v) (v :: values) := by
  intro hexact
  have hsum : average.a_accumulator + v = (v :: values).sum := by
    rw [h.sum, List.sum_cons, Int.add_comm]
  have hsize := hexact.size
  have hpos := List.length_pos_iff.mpr hne
  rw [Average.add, hsum, IntegerType.wrap_of_fits hfits, if_pos (by omega)] at hsize
  have hone : size ⟨v, 1⟩ = 1 := by
    change IntegerType.int.wrap (1 : UInt32).toNat = 1
    decide
  rw [hone, List.length_cons] at hsize
  omega

theorem sum_erase {v : Int} (hv : v ∈ values) : (values.erase v).sum = values.sum - v := by
  rw [(List.perm_cons_erase hv).sum_eq, List.sum_cons]
  omega

theorem Tallies.sub (h : Tallies T average values) {v : Int}
    (hfits : T.Fits (values.erase v).sum) (hmem : v ∈ values)
    (hv : v < values.sum ∨ values.length = 1) :
    Tallies T (average.sub T v) (values.erase v) := by
  have hlength := List.length_erase_of_mem hmem
  have hpos := List.length_pos_of_mem hmem
  have hlarge : average.a_n > 1 ↔ 1 < values.length := by
    rw [← h.number]
    exact UInt32.lt_iff_toNat_lt
  rw [Average.sub, h.sum, ← sum_erase hmem, IntegerType.wrap_of_fits hfits]
  split
  · refine ⟨rfl, ?_, hfits⟩
    have hle : (1 : UInt32) ≤ average.a_n := UInt32.le_iff_toNat_le.mpr (by simp [h.number]; omega)
    rw [UInt32.toNat_sub_of_le _ _ hle, h.number, hlength]
    rfl
  · next hsmall =>
    have hnil : values.erase v = [] := by
      rw [hlarge] at hsmall
      rw [← List.length_eq_zero_iff, hlength]
      omega
    rw [hnil]
    exact tallies_instantiate T

/-- The average forgets the values that are left. -/
theorem Tallies.sub_breaks (h : Tallies T average values) {v : Int} (hmem : v ∈ values)
    (hv : values.sum ≤ v) (hone : values.length ≠ 1) :
    ¬ Exact T (average.sub T v) (values.erase v) := by
  intro hexact
  have hpos := List.length_pos_of_mem hmem
  have hsize := hexact.size
  have hzero : size ⟨0, 0⟩ = 0 := by decide
  rw [Average.sub, if_neg (by rw [h.sum]; omega), hzero, List.length_erase_of_mem hmem] at hsize
  omega

/-! ## Any updates -/

theorem erase_eq_nil {v : Int} (hmem : v ∈ values) (hone : values.length = 1) :
    values.erase v = [] := by
  rw [← List.length_eq_zero_iff, List.length_erase_of_mem hmem, hone]

theorem step_keeps (update : Update) (h : Tallies T average values ∧ Exact T average values)
    (hlegal : update.Legal T values) (hok : Accountable T values update) :
    Tallies T (update.apply T average) (update.remaining values) ∧
      Exact T (update.apply T average) (update.remaining values) := by
  have hlength := (h.1.exact_iff.mp h.2).1
  cases update with
  | add v =>
    have htallies := h.1.add hlength hlegal.1 hok.1
    exact ⟨htallies, htallies.exact_iff.mpr hok.2⟩
  | sub v =>
    have htallies := h.1.sub hlegal.1 hlegal.2 hok
    have hle := List.length_erase_le (a := v) (l := values)
    have hnonneg : 0 ≤ (values.erase v).sum := by
      rcases hok with hless | hone
      · rw [sum_erase hlegal.2]
        omega
      · rw [erase_eq_nil hlegal.2 hone]
        exact Int.le_refl 0
    exact ⟨htallies, htallies.exact_iff.mpr
      ⟨Nat.lt_of_le_of_lt hle hlength, Or.inr (Or.inl hnonneg)⟩⟩

theorem step_breaks (update : Update) (h : Tallies T average values ∧ Exact T average values)
    (hlegal : update.Legal T values) (hok : ¬ Accountable T values update) :
    ¬ Exact T (update.apply T average) (update.remaining values) := by
  have hlength := (h.1.exact_iff.mp h.2).1
  cases update with
  | add v =>
    by_cases hv : 0 ≤ v ∨ values = []
    · intro hexact
      exact hok ⟨hv, (h.1.add hlength hlegal.1 hv).exact_iff.mp hexact⟩
    · obtain ⟨hneg, hne⟩ := not_or.mp hv
      exact h.1.add_breaks hlegal.1 (Int.not_le.mp hneg) hne
  | sub v =>
    obtain ⟨hle, hone⟩ := not_or.mp hok
    exact h.1.sub_breaks hlegal.2 (Int.not_lt.mp hle) hone

/-- Along any updates, the average is exact as long as each of them is accountable. -/
theorem exact_iff_accountable (T : IntegerType) (updates : List Update)
    (hlegal : Runs.Meets Update.remaining (Update.Legal T) [] updates) :
    (∀ pre, pre <+: updates → Exact T (Runs.run (Update.apply T) instantiate pre)
      (Runs.run Update.remaining [] pre)) ↔
        Runs.Meets Update.remaining (Accountable T) [] updates := by
  have hkeeps : ∀ (average : Average) (values : List Int) (update : Update),
      Tallies T average values ∧ Exact T average values → update.Legal T values →
        Accountable T values update → Tallies T (update.apply T average) (update.remaining values) ∧
          Exact T (update.apply T average) (update.remaining values) :=
    fun _ _ update h hlegal hok => step_keeps update h hlegal hok
  have hbreaks : ∀ (average : Average) (values : List Int) (update : Update),
      Tallies T average values ∧ Exact T average values → update.Legal T values →
        ¬ Accountable T values update →
          ¬ Exact T (update.apply T average) (update.remaining values) :=
    fun _ _ update h hlegal hok => step_breaks update h hlegal hok
  exact Runs.forall_prefix_iff_meets (fun _ _ h => h.2) hkeeps hbreaks
    ⟨tallies_instantiate T, exact_instantiate T⟩ hlegal

theorem exact_iff_accountable_five_minus_three :
    (∀ pre, pre <+: [.add 5, .add (-3)] → Exact IntegerType.int
      (Runs.run (Update.apply IntegerType.int) instantiate pre)
      (Runs.run Update.remaining [] pre)) ↔
        Runs.Meets Update.remaining (Accountable IntegerType.int) [] [.add 5, .add (-3)] :=
  exact_iff_accountable IntegerType.int [.add 5, .add (-3)]
    ⟨⟨by decide, by decide⟩, ⟨by decide, by decide⟩, trivial⟩

/-- A second value that is negative makes the average forget the first. -/
theorem not_exact_negative : ¬ ∀ (T : IntegerType) (updates : List Update),
    Runs.Meets Update.remaining (Update.Legal T) [] updates →
      Exact T (Runs.run (Update.apply T) instantiate updates)
        (Runs.run Update.remaining [] updates) := by
  intro hall
  have hlegal : Runs.Meets Update.remaining (Update.Legal IntegerType.int) []
      [.add 5, .add (-3)] := ⟨⟨by decide, by decide⟩, ⟨by decide, by decide⟩, trivial⟩
  have hsize := (hall IntegerType.int _ hlegal).size
  revert hsize
  decide

end Average

end Coffee.Basis
