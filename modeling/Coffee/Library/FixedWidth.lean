import Mathlib.Data.Int.Lemmas

/-! # Integers of a fixed width

A type of integers has a number of bits and may have a sign. A value that does not fit wraps
around, and two values wrap to the same one just when they differ by a multiple of the modulus.
-/

namespace Coffee.Library

structure IntegerType where
  bits : Nat
  signed : Bool
  positive : 0 < bits
deriving DecidableEq, Repr

namespace IntegerType

def int : IntegerType := ⟨32, true, by decide⟩

def unsignedInt : IntegerType := ⟨32, false, by decide⟩

def int64 : IntegerType := ⟨64, true, by decide⟩

def sizeT : IntegerType := ⟨64, false, by decide⟩

variable (T : IntegerType)

def least : Int := if T.signed then -2 ^ (T.bits - 1) else 0

def Fits (v : Int) : Prop := T.least ≤ v ∧ v < T.least + 2 ^ T.bits

instance (v : Int) : Decidable (T.Fits v) := inferInstanceAs (Decidable (_ ∧ _))

def wrap (v : Int) : Int := (v - T.least) % 2 ^ T.bits + T.least

/-- The result of an operation that is undefined unless the exact result fits. -/
def checked (v : Int) : Option Int := if T.Fits v then some v else none

theorem modulus_pos : (0 : Int) < 2 ^ T.bits := Int.pow_pos (by decide)

theorem modulus_eq : (2 : Int) ^ T.bits = 2 ^ (T.bits - 1) * 2 := by
  rw [← Int.pow_succ, Nat.succ_eq_add_one, Nat.sub_add_cancel T.positive]

theorem fits_zero : T.Fits 0 := by
  have hhalf : (0 : Int) < 2 ^ (T.bits - 1) := Int.pow_pos (by decide)
  have hmodulus := T.modulus_eq
  unfold Fits least
  split
  · omega
  · omega

theorem int_fits_iff {v : Int} : int.Fits v ↔ -2 ^ 31 ≤ v ∧ v < 2 ^ 31 := by
  simp [Fits, least, int]

theorem int_wrap (v : Int) : int.wrap v = (v + 2 ^ 31) % 2 ^ 32 - 2 ^ 31 := by
  simp [wrap, least, int]
  rfl

theorem unsignedInt_wrap (v : Int) : unsignedInt.wrap v = v % 2 ^ 32 := by
  simp [wrap, least, unsignedInt]

theorem sizeT_wrap (v : Int) : sizeT.wrap v = v % 2 ^ 64 := by
  simp [wrap, least, sizeT]

variable {T}

theorem Fits.bounds {v : Int} (h : T.Fits v) : -2 ^ T.bits ≤ v ∧ v < 2 ^ T.bits := by
  have hhalf : (0 : Int) < 2 ^ (T.bits - 1) := Int.pow_pos (by decide)
  have hmodulus := T.modulus_eq
  unfold Fits least at h
  split at h
  · omega
  · omega

theorem checked_of_fits {v : Int} (h : T.Fits v) : T.checked v = some v := if_pos h

theorem int64_fits_iff {v : Int} : int64.Fits v ↔ -2 ^ 63 ≤ v ∧ v < 2 ^ 63 := by
  simp [Fits, least, int64]

theorem fits_wrap (v : Int) : T.Fits (T.wrap v) := by
  have hlower := Int.emod_nonneg (v - T.least) (Int.ne_of_gt T.modulus_pos)
  have hupper := Int.emod_lt_of_pos (v - T.least) T.modulus_pos
  constructor
  · unfold wrap
    omega
  · unfold wrap
    omega

theorem wrap_of_fits {v : Int} (h : T.Fits v) : T.wrap v = v := by
  obtain ⟨hlower, hupper⟩ := h
  rw [wrap, Int.emod_eq_of_lt (by omega) (by omega)]
  omega

theorem wrap_eq_self_iff {v : Int} : T.wrap v = v ↔ T.Fits v :=
  ⟨fun h => h ▸ fits_wrap v, wrap_of_fits⟩

/-- A value wraps to one that fits just when they differ by a multiple of the modulus. -/
theorem wrap_eq_iff {v w : Int} (hw : T.Fits w) : T.wrap v = w ↔ (2 : Int) ^ T.bits ∣ v - w := by
  have hsub : v - T.least - (w - T.least) = v - w := by omega
  rw [← wrap_of_fits hw, wrap_of_fits hw, ← hsub, Int.dvd_iff_emod_eq_zero,
    ← Int.emod_eq_emod_iff_emod_sub_eq_zero]
  nth_rewrite 1 [← wrap_of_fits hw]
  constructor
  · intro h
    unfold wrap at h
    omega
  · intro h
    rw [wrap, wrap, h]

theorem dvd_wrap_sub (v : Int) : (2 : Int) ^ T.bits ∣ T.wrap v - v := by
  have hself : (2 : Int) ^ T.bits ∣ v - T.wrap v := (wrap_eq_iff (fits_wrap v)).mp rfl
  rw [← Int.neg_sub]
  exact Int.dvd_neg.mpr hself

theorem wrap_eq_wrap_iff {v w : Int} : T.wrap v = T.wrap w ↔ (2 : Int) ^ T.bits ∣ v - w := by
  rw [wrap_eq_iff (fits_wrap w)]
  have hw := dvd_wrap_sub (T := T) w
  have hsplit : v - w = v - T.wrap w + (T.wrap w - w) := by omega
  rw [hsplit, Int.dvd_add_left hw]

/-- What lies between zero and a value that fits does so, too. -/
theorem Fits.between {v w : Int} (h : T.Fits v) (hw : 0 ≤ w ∧ w ≤ v ∨ v ≤ w ∧ w ≤ 0) :
    T.Fits w := by
  obtain ⟨hlower, hupper⟩ := h
  obtain ⟨hzero, hzero'⟩ := T.fits_zero
  exact ⟨by omega, by omega⟩

theorem neg_tdiv_of_neg {v : Int} (hv : v ≤ 0) (n : Int) : v.tdiv n = -(-v / n) := by
  rw [← Int.tdiv_eq_ediv_of_nonneg (by omega), Int.neg_tdiv, Int.neg_neg]

theorem Fits.tdiv {v : Int} (h : T.Fits v) (n : Nat) : T.Fits (v.tdiv n) := by
  have hn : (0 : Int) ≤ n := Int.natCast_nonneg n
  refine h.between ?_
  rcases Int.le_total 0 v with hv | hv
  · exact Or.inl ⟨Int.tdiv_nonneg hv hn, Int.tdiv_le_self n hv⟩
  · have hupper := Int.ediv_nonneg (a := -v) (by omega) hn
    have hlower := Int.ediv_le_self (a := -v) n (by omega)
    rw [neg_tdiv_of_neg hv]
    exact Or.inr ⟨by omega, by omega⟩

/-- How far the quotient of the residue of a negative value is from the truncated quotient. -/
theorem emod_ediv_sub_tdiv {m s n : Int} (hn : 0 < n) (hs : s < 0) (hm : -m ≤ s) :
    s % m / n - s.tdiv n = m / n - if -s % n ≤ m % n then 0 else 1 := by
  have hresidue : s % m = m - -s := by
    rw [← Int.add_emod_right, Int.emod_eq_of_lt (by omega) (by omega)]
    omega
  have hsplit : m - -s = m % n - -s % n + n * (m / n - -s / n) := by
    have hm := Int.emod_add_mul_ediv m n
    have hs := Int.emod_add_mul_ediv (-s) n
    rw [Int.mul_sub]
    omega
  have hquotient : (m - -s) / n = (m % n - -s % n) / n + (m / n - -s / n) := by
    rw [hsplit, Int.add_mul_ediv_left _ _ (by omega)]
  have hsmall : (m % n - -s % n) / n = - if -s % n ≤ m % n then 0 else 1 := by
    have hlower := Int.emod_nonneg (-s) (Int.ne_of_gt hn)
    have hlower' := Int.emod_nonneg m (Int.ne_of_gt hn)
    have hupper := Int.emod_lt_of_pos (-s) hn
    have hupper' := Int.emod_lt_of_pos m hn
    split
    · rw [Int.ediv_eq_zero_of_lt (by omega) (by omega)]
      rfl
    · rw [Int.ediv_eq_iff_of_pos hn]
      constructor
      · omega
      · omega
  rw [hresidue, hquotient, hsmall, neg_tdiv_of_neg (by omega)]
  omega

end IntegerType

end Coffee.Library
