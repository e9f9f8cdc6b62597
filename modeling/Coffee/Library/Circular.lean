import Coffee.Library.Comparison
import Mathlib.Algebra.Group.Int.Defs

/-! # Comparison by a narrowed difference

The difference of two keys, reduced to a machine integer, orders the keys round a circle. Such a
comparison is a total preorder on the sets of keys that leave half of the circle free.
-/

namespace Coffee.Library.Circular

open Comparison

universe u

variable {α : Type u}

/-- How far the circle of `2 * half` places has to be followed from `a` to `b`. -/
def ahead (half : Nat) (a b : Int) : Int := (b - a) % (2 * half : Nat)

/-- The difference as a machine integer. -/
def narrowed (half : Nat) (a b : Int) : Int := Int.bmod (a - b) (2 * half)

variable {half : Nat} {a b c : Int}

theorem ahead_nonneg (h : 0 < half) (a b : Int) : 0 ≤ ahead half a b := Int.emod_nonneg _ (by omega)

theorem ahead_lt (h : 0 < half) (a b : Int) : ahead half a b < 2 * half := by
  have hlt : ahead half a b < (2 * half : Nat) := Int.emod_lt_of_pos _ (by omega)
  omega

@[simp] theorem ahead_self (a : Int) : ahead half a a = 0 := by simp [ahead]

theorem ahead_add (a b c : Int) :
    ahead half a c = (ahead half a b + ahead half b c) % (2 * half : Nat) := by
  rw [ahead, ahead, ahead, ← Int.add_emod]
  congr 1
  omega

theorem ahead_add_of_lt (h : 0 < half) (hlt : ahead half a b + ahead half b c < 2 * half) :
    ahead half a c = ahead half a b + ahead half b c := by
  have hab := ahead_nonneg h a b
  have hbc := ahead_nonneg h b c
  rw [ahead_add a b c, Int.emod_eq_of_lt (by omega) (by omega)]

theorem ahead_symm (half : Nat) (a b : Int) :
    ahead half b a = if ahead half a b = 0 then 0 else 2 * half - ahead half a b := by
  have hneg : ahead half b a = -(b - a) % (2 * half : Nat) := by
    rw [ahead, Int.neg_sub]
  rw [hneg, Int.neg_emod]
  split
  · rename_i hdvd
    have hzero : ahead half a b = 0 := Int.emod_eq_zero_of_dvd hdvd
    rw [if_pos hzero]
  · rename_i hdvd
    have hzero : ahead half a b ≠ 0 := fun hzero => hdvd (Int.dvd_of_emod_eq_zero hzero)
    rw [if_neg hzero, Int.natAbs_natCast]
    simp [ahead]

/-- The difference is negative up to half of the circle ahead and positive beyond. -/
theorem narrowed_eq (h : 0 < half) : narrowed half a b =
    if ahead half a b ≤ half then -ahead half a b else 2 * half - ahead half a b := by
  have hnonneg := ahead_nonneg h a b
  have hlt := ahead_lt h a b
  have hback : (a - b) % (2 * half : Nat) = ahead half b a := rfl
  rw [narrowed, Int.bmod_eq_emod, hback, ahead_symm]
  split <;> split <;> split <;> omega

/-- The keys decide, and `tie` between the elements whose keys have one place. -/
def keyed (half : Nat) (key : α → Int) (tie : α → α → Int) (x y : α) : Int :=
  if narrowed half (key x) (key y) ≠ 0 then narrowed half (key x) (key y) else tie x y

/-- `tie` is a total preorder on each place. -/
structure Ties (half : Nat) (key : α → Int) (tie : α → α → Int) : Prop where
  antisymm : ∀ x y, ahead half (key x) (key y) = 0 → (tie x y).sign = -(tie y x).sign
  trans : ∀ x y z, ahead half (key x) (key y) = 0 → ahead half (key y) (key z) = 0 →
    tie x y ≤ 0 → tie y z ≤ 0 → tie x z ≤ 0

/-- No keys are opposite, one place holds no elements that `tie` confuses, and what lies ahead by
less than half of the circle does so transitively. -/
structure Separated (half : Nat) (key : α → Int) (tie : α → α → Int) (S : Set α) : Prop where
  opposite : ∀ x ∈ S, ∀ y ∈ S, ahead half (key x) (key y) ≠ half
  place : ∀ x ∈ S, ∀ y ∈ S, ahead half (key x) (key y) = 0 → tie x y = 0 → x = y
  round : ∀ x ∈ S, ∀ y ∈ S, ∀ z ∈ S, ahead half (key x) (key y) < half →
    ahead half (key y) (key z) < half → ahead half (key x) (key z) < half

section Keyed

variable {key : α → Int} {tie : α → α → Int} {S : Set α} {x y z : α}

theorem Ties.refl (h : Ties half key tie) (x : α) : tie x x = 0 := by
  have hsign := h.antisymm x x (ahead_self _)
  exact Int.sign_eq_zero_iff_zero.mp (by omega)

variable (key tie)

theorem keyed_of_place (h : 0 < half) (hplace : ahead half (key x) (key y) = 0) :
    keyed half key tie x y = tie x y := by
  rw [keyed, narrowed_eq h, hplace]
  simp

theorem keyed_of_tie (htie : tie x y = 0) :
    keyed half key tie x y = narrowed half (key x) (key y) := by
  rw [keyed, htie]
  split
  · rfl
  · rename_i hzero
    exact (Decidable.not_not.mp hzero).symm

theorem keyed_of_near (h : 0 < half) (hpos : 0 < ahead half (key x) (key y))
    (hle : ahead half (key x) (key y) ≤ half) : keyed half key tie x y < 0 := by
  have hnarrowed := narrowed_eq (a := key x) (b := key y) h
  rw [if_pos hle] at hnarrowed
  rw [keyed, if_pos (by omega)]
  omega

theorem keyed_of_far (h : 0 < half) (hlt : half < ahead half (key x) (key y)) :
    0 < keyed half key tie x y := by
  have hround := ahead_lt h (key x) (key y)
  have hnarrowed := narrowed_eq (a := key x) (b := key y) h
  rw [if_neg (by omega)] at hnarrowed
  rw [keyed, if_pos (by omega)]
  omega

variable {key tie}

theorem keyed_nonpos_iff (h : 0 < half) : keyed half key tie x y ≤ 0 ↔
    (ahead half (key x) (key y) = 0 ∧ tie x y ≤ 0) ∨
      (0 < ahead half (key x) (key y) ∧ ahead half (key x) (key y) ≤ half) := by
  have hnonneg := ahead_nonneg h (key x) (key y)
  rcases Int.lt_trichotomy 0 (ahead half (key x) (key y)) with hpos | hzero | hneg
  · rcases Int.lt_or_le half (ahead half (key x) (key y)) with hgt | hle
    · have hpositive := keyed_of_far key tie h hgt
      omega
    · have hnegative := keyed_of_near key tie h hpos hle
      omega
  · rw [keyed_of_place key tie h hzero.symm]
    omega
  · omega

theorem keyed_eq_zero_iff (h : 0 < half) : keyed half key tie x y = 0 ↔
    ahead half (key x) (key y) = 0 ∧ tie x y = 0 := by
  have hnonneg := ahead_nonneg h (key x) (key y)
  rcases Int.lt_or_eq_of_le hnonneg with hpos | hplace
  · rcases Int.lt_or_le half (ahead half (key x) (key y)) with hgt | hle
    · have hpositive := keyed_of_far key tie h hgt
      omega
    · have hnegative := keyed_of_near key tie h hpos hle
      omega
  · rw [keyed_of_place key tie h hplace.symm]
    omega

theorem Separated.totalPreorder (h : 0 < half) (hties : Ties half key tie)
    (hS : Separated half key tie S) : TotalPreorder (keyed half key tie) Eq S where
  antisymm x hx y hy := by
    have hopposite := hS.opposite x hx y hy
    have hback := ahead_symm half (key x) (key y)
    have hnonneg := ahead_nonneg h (key x) (key y)
    have hlt := ahead_lt h (key x) (key y)
    rcases Int.lt_trichotomy (ahead half (key x) (key y)) half with hnear | hequal | hfar
    · rcases Int.lt_or_eq_of_le hnonneg with hpos | hzero
      · rw [if_neg (by omega)] at hback
        have hxy := keyed_of_near key tie h hpos (by omega)
        have hyx := keyed_of_far key tie (x := y) (y := x) h (by omega)
        rw [Int.sign_eq_neg_one_of_neg hxy, Int.sign_eq_one_of_pos hyx]
      · rw [if_pos hzero.symm] at hback
        rw [keyed_of_place key tie h hzero.symm, keyed_of_place key tie h hback]
        exact hties.antisymm x y hzero.symm
    · exact absurd hequal hopposite
    · rw [if_neg (by omega)] at hback
      have hxy := keyed_of_far key tie h hfar
      have hyx := keyed_of_near key tie (x := y) (y := x) h (by omega) (by omega)
      rw [Int.sign_eq_one_of_pos hxy, Int.sign_eq_neg_one_of_neg hyx]
      rfl
  trans x hx y hy z hz hxy hyz := by
    rw [keyed_nonpos_iff h] at hxy hyz ⊢
    have hoppositeXY := hS.opposite x hx y hy
    have hoppositeYZ := hS.opposite y hy z hz
    have hround := hS.round x hx y hy z hz (by omega) (by omega)
    have hadd := ahead_add_of_lt (a := key x) (b := key y) (c := key z) h (by omega)
    have hnonneg := ahead_nonneg h (key x) (key z)
    rcases hxy with ⟨hplaceXY, htieXY⟩ | hxy
    · rcases hyz with ⟨hplaceYZ, htieYZ⟩ | hyz
      · exact Or.inl ⟨by omega, hties.trans x y z hplaceXY hplaceYZ htieXY htieYZ⟩
      · exact Or.inr (by omega)
    · exact Or.inr (by omega)
  zero x hx y hy := by
    rw [keyed_eq_zero_iff h]
    constructor
    · rintro ⟨hplace, htie⟩
      exact hS.place x hx y hy hplace htie
    · rintro rfl
      exact ⟨ahead_self _, hties.refl x⟩

theorem TotalPreorder.separated (h : 0 < half) (hS : TotalPreorder (keyed half key tie) Eq S) :
    Separated half key tie S := by
  have hopposite : ∀ x ∈ S, ∀ y ∈ S, ahead half (key x) (key y) ≠ half := by
    intro x hx y hy heq
    have hback := ahead_symm half (key x) (key y)
    rw [if_neg (by omega)] at hback
    have hsign := hS.antisymm x hx y hy
    rw [Int.sign_eq_neg_one_of_neg (keyed_of_near key tie h (by omega) (by omega)),
      Int.sign_eq_neg_one_of_neg (keyed_of_near key tie h (by omega) (by omega))] at hsign
    exact absurd hsign (by decide)
  refine ⟨hopposite, ?_, ?_⟩
  · intro x hx y hy hplace htie
    apply (hS.zero x hx y hy).mp
    rw [keyed_of_place key tie h hplace, htie]
  · intro x hx y hy z hz hxy hyz
    have hnonnegXY := ahead_nonneg h (key x) (key y)
    have hnonnegYZ := ahead_nonneg h (key y) (key z)
    have hadd := ahead_add_of_lt (a := key x) (b := key y) (c := key z) h (by omega)
    rcases Int.lt_or_le (ahead half (key x) (key z)) half with hnear | hfar
    · exact hnear
    · have hbeyond := hopposite x hx z hz
      have hpositive := keyed_of_far key tie (x := x) (y := z) h (by omega)
      have hnonpos := hS.trans x hx y hy z hz ((keyed_nonpos_iff h).mpr (Or.inr (by omega)))
        ((keyed_nonpos_iff h).mpr (Or.inr (by omega)))
      omega

/-- A keyed comparison is a total preorder on exactly the separated sets. -/
theorem totalPreorder_iff_separated (h : 0 < half) (hties : Ties half key tie) :
    TotalPreorder (keyed half key tie) Eq S ↔ Separated half key tie S :=
  ⟨TotalPreorder.separated h, Separated.totalPreorder h hties⟩

theorem ahead_of_near (hlt : b - a < half) (hlt' : a - b < half) :
    ahead half a b = if a ≤ b then b - a else b - a + 2 * half := by
  split
  · exact Int.emod_eq_of_lt (by omega) (by omega)
  · rw [ahead, ← Int.add_emod_right, Int.emod_eq_of_lt (by omega) (by omega)]
    omega

/-- Keys that are all less than half of the circle apart are ordered as integers. -/
theorem Separated.of_near (hnear : ∀ x ∈ S, ∀ y ∈ S, key y - key x < half)
    (hplace : ∀ x ∈ S, ∀ y ∈ S, key x = key y → tie x y = 0 → x = y) :
    Separated half key tie S := by
  have hahead : ∀ x ∈ S, ∀ y ∈ S, ahead half (key x) (key y) =
      if key x ≤ key y then key y - key x else key y - key x + 2 * half := fun x hx y hy =>
    ahead_of_near (hnear x hx y hy) (hnear y hy x hx)
  refine ⟨?_, ?_, ?_⟩
  · intro x hx y hy
    have hxy := hnear x hx y hy
    have hyx := hnear y hy x hx
    rw [hahead x hx y hy]
    split <;> omega
  · intro x hx y hy hzero htie
    have hyx := hnear y hy x hx
    rw [hahead x hx y hy] at hzero
    apply hplace x hx y hy _ htie
    split at hzero <;> omega
  · intro x hx y hy z hz hxy hyz
    have hyx := hnear y hy x hx
    have hzy := hnear z hz y hy
    have hxz := hnear x hx z hz
    rw [hahead x hx y hy] at hxy
    rw [hahead y hy z hz] at hyz
    rw [hahead x hx z hz]
    split at hxy <;> split at hyz <;> split <;> omega

end Keyed

end Coffee.Library.Circular
