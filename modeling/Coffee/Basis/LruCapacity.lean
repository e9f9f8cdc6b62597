import Coffee.Basis.LruRefinement

/-! # The capacity of the LRU cache

The constructor takes any `int` as the size. A cache whose size is not positive is full before it
holds a pair or never, and the first new key shows it.
-/

namespace Coffee.Basis.Cache

open Coffee.Library

universe u

variable {K V : Type u}

def Operation.stores : Operation K V → Bool
  | .set _ _ => true
  | _ => false

/-- The operations are defined, and they leave at most as many pairs as the size allows. -/
def Within (hasher : Hasher K) (cache : Cache K V) (operations : List (Operation K V)) : Prop :=
  ∃ outcomes after, Runs.trace? (step hasher) cache operations = some (outcomes, after) ∧
    after.size ≤ cache.m_maxSize.toInt.toNat

theorem within_positive (hasher : LawfulHasher K) {maxSize : Int32} (hmax : 1 ≤ maxSize.toInt)
    (operations : List (Operation K V)) :
    Within hasher.toHasher (instantiate maxSize) operations := by
  obtain ⟨after, htrace, h⟩ := Runs.trace?_simulation (fun _ _ operation h => h.step hmax operation)
    (refines_instantiate hasher maxSize) operations
  exact ⟨_, after, htrace, h.size_eq ▸ h.bound⟩

theorem step_instantiate (hasher : Hasher K) (maxSize : Int32) {operation : Operation K V}
    (h : operation.stores = false) :
    ∃ outcome, step hasher (instantiate maxSize) operation = some (outcome, instantiate maxSize) := by
  cases operation with
  | find key => exact ⟨.found none, rfl⟩
  | erase key => exact ⟨.erased false, rfl⟩
  | set key value => cases h

theorem isFull_instantiate (maxSize : Int32) :
    (instantiate maxSize : Cache K V).isFull = true ↔ maxSize.toInt = 0 := by
  have hlower := maxSize.le_toInt
  have hupper := maxSize.toInt_lt
  have hfull : (instantiate maxSize : Cache K V).isFull = true ↔
      0 = (maxSize.toInt % 2 ^ 64).toNat := decide_eq_true_iff
  rw [hfull]
  omega

/-- The first pair has no place in a cache whose size is not positive: at zero there is no oldest pair
to displace, and below zero nothing is displaced. -/
theorem not_within_set (hasher : Hasher K) {maxSize : Int32} (hmax : maxSize.toInt < 1) (key : K)
    (value : V) : ¬ Within hasher (instantiate maxSize) [.set key value] := by
  rintro ⟨outcomes, after, htrace, hsize⟩
  have hset : (instantiate maxSize : Cache K V).set hasher key value =
      ((instantiate maxSize).makeRoom hasher).map fun cache => cache.push hasher key value := by
    rw [set]
    cases (instantiate maxSize : Cache K V).makeRoom hasher <;> rfl
  by_cases hzero : maxSize.toInt = 0
  · have hnone : (instantiate maxSize : Cache K V).makeRoom hasher = none := by
      rw [makeRoom, if_pos ((isFull_instantiate maxSize).mpr hzero)]
      rfl
    simp [Runs.trace?, step, hset, hnone] at htrace
  · have hroom : (instantiate maxSize : Cache K V).makeRoom hasher = some (instantiate maxSize) := by
      rw [makeRoom, if_neg fun hfull => hzero ((isFull_instantiate maxSize).mp hfull)]
    simp only [Runs.trace?, step, hset, hroom, Option.map_some, Option.bind_eq_bind,
      Option.bind_some, Option.pure_def, Option.some.injEq, Prod.mk.injEq] at htrace
    obtain ⟨-, rfl⟩ := htrace
    have hone : ((instantiate maxSize : Cache K V).push hasher key value).size = 1 := rfl
    have hmaxSize : (instantiate maxSize : Cache K V).m_maxSize = maxSize := rfl
    rw [hone, hmaxSize] at hsize
    omega

theorem within_nil (hasher : Hasher K) (maxSize : Int32) :
    Within hasher (instantiate maxSize : Cache K V) [] :=
  ⟨[], instantiate maxSize, rfl, Nat.zero_le _⟩

theorem within_cons_of_not_stores (hasher : Hasher K) (maxSize : Int32)
    {operation : Operation K V} (h : operation.stores = false)
    (operations : List (Operation K V)) :
    Within hasher (instantiate maxSize) (operation :: operations) ↔
      Within hasher (instantiate maxSize) operations := by
  obtain ⟨outcome, hstep⟩ := step_instantiate hasher maxSize h
  unfold Within
  rw [Runs.trace?_cons hstep]
  constructor
  · rintro ⟨outcomes, after, htrace, hsize⟩
    obtain ⟨⟨rest, last⟩, hbehind, heq⟩ := Option.map_eq_some_iff.mp htrace
    cases heq
    exact ⟨rest, last, hbehind, hsize⟩
  · rintro ⟨outcomes, after, htrace, hsize⟩
    exact ⟨outcome :: outcomes, after, by rw [htrace]; rfl, hsize⟩

theorem forall_within_iff (hasher : Hasher K) {maxSize : Int32} (hmax : maxSize.toInt < 1)
    (operations : List (Operation K V)) :
    (∀ pre, pre <+: operations → Within hasher (instantiate maxSize) pre) ↔
      ∀ operation ∈ operations, operation.stores = false := by
  induction operations with
  | nil =>
    refine iff_of_true (fun pre hpre => ?_) (List.forall_mem_nil _)
    rw [List.prefix_nil.mp hpre]
    exact within_nil hasher maxSize
  | cons operation operations ih =>
    rw [List.forall_mem_cons]
    cases hstores : operation.stores with
    | true =>
      refine iff_of_false (fun hwithin => ?_) (fun h => Bool.noConfusion h.1)
      cases operation with
      | set key value => exact not_within_set hasher hmax key value (hwithin _ (by simp))
      | find key => cases hstores
      | erase key => cases hstores
    | false =>
      rw [Runs.forall_prefix_cons, and_iff_right (within_nil hasher maxSize), and_iff_right rfl,
        ← ih]
      exact forall₂_congr fun pre _ => within_cons_of_not_stores hasher maxSize hstores pre

end Coffee.Basis.Cache
