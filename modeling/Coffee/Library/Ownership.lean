import Mathlib.Data.List.Count
import Mathlib.Logic.Function.Basic

/-! # Resources and their owners

An owner holds at most one resource. It releases the one that it holds, but nothing releases the
one that it held when another is put in its place.
-/

namespace Coffee.Library

universe u v

structure Ownership (ι : Type u) (ρ : Type v) where
  holds : ι → Option ρ
  acquired : List ρ
  released : List ρ

namespace Ownership

variable {ι : Type u} {ρ : Type v} (o : Ownership ι ρ)

/-- A new resource, or none, takes the place of what the owner holds. -/
def put [DecidableEq ι] (i : ι) (r : Option ρ) : Ownership ι ρ :=
  { o with holds := Function.update o.holds i r, acquired := o.acquired ++ r.toList }

def release [DecidableEq ι] (i : ι) : Ownership ι ρ :=
  { o with holds := Function.update o.holds i none, released := o.released ++ (o.holds i).toList }

structure Consistent : Prop where
  acquired : ∀ i, ∀ r ∈ o.holds i, r ∈ o.acquired
  not_released : ∀ i, ∀ r ∈ o.holds i, r ∉ o.released
  unique : ∀ i j, ∀ r ∈ o.holds i, r ∈ o.holds j → i = j
  released_subset : o.released ⊆ o.acquired

/-- Every resource is released once, and not before its owner has done with it. -/
def Settled [DecidableEq ρ] : Prop :=
  ∀ r ∈ o.acquired, (∃ i, r ∈ o.holds i) ∧ o.released.count r = 0 ∨
    (∀ i, r ∉ o.holds i) ∧ o.released.count r = 1

variable {o} {i : ι}

theorem consistent_nil : Consistent (⟨fun _ => none, [], []⟩ : Ownership ι ρ) := by
  constructor <;> simp

/-- The resources are numbered in the order in which they were acquired. -/
structure Numbered (o : Ownership ι Nat) : Prop where
  consistent : o.Consistent
  number : ∀ r ∈ o.acquired, r < o.acquired.length

theorem numbered_nil : Numbered (⟨fun _ => none, [], []⟩ : Ownership ι Nat) :=
  ⟨consistent_nil, fun _ h => absurd h List.not_mem_nil⟩

theorem Numbered.fresh {o : Ownership ι Nat} {r : Option Nat} (h : Numbered o)
    (hr : r = some o.acquired.length ∨ r = none) : ∀ s ∈ r, s ∉ o.acquired := by
  intro s hs hmem
  have hlt := h.number s hmem
  rcases hr with rfl | rfl
  · cases hs
    exact absurd hlt (Nat.lt_irrefl _)
  · cases hs

variable [DecidableEq ι]

theorem mem_put_iff {r : Option ρ} {s : ρ} {j : ι} :
    s ∈ (o.put i r).holds j ↔ j = i ∧ s ∈ r ∨ j ≠ i ∧ s ∈ o.holds j := by
  by_cases hj : j = i
  · subst hj
    simp [put]
  · simp [put, hj]

theorem mem_release_iff {s : ρ} {j : ι} : s ∈ (o.release i).holds j ↔ j ≠ i ∧ s ∈ o.holds j := by
  by_cases hj : j = i
  · subst hj
    simp [release]
  · simp [release, hj]

theorem Consistent.put (h : o.Consistent) {r : Option ρ} (hfresh : ∀ s ∈ r, s ∉ o.acquired) :
    (o.put i r).Consistent := by
  constructor
  · intro j s hs
    rcases mem_put_iff.mp hs with ⟨-, hs⟩ | ⟨-, hs⟩
    · exact List.mem_append_right _ (Option.mem_toList.mpr hs)
    · exact List.mem_append_left _ (h.acquired j s hs)
  · intro j s hs
    rcases mem_put_iff.mp hs with ⟨-, hs⟩ | ⟨-, hs⟩
    · exact fun hreleased => hfresh s hs (h.released_subset hreleased)
    · exact h.not_released j s hs
  · intro j k s hj hk
    rcases mem_put_iff.mp hj with ⟨rfl, hs⟩ | ⟨-, hj⟩
    · rcases mem_put_iff.mp hk with ⟨rfl, -⟩ | ⟨-, hk⟩
      · rfl
      · exact absurd (h.acquired k s hk) (hfresh s hs)
    · rcases mem_put_iff.mp hk with ⟨-, hs⟩ | ⟨-, hk⟩
      · exact absurd (h.acquired j s hj) (hfresh s hs)
      · exact h.unique j k s hj hk
  · exact List.Subset.trans h.released_subset (List.subset_append_left _ _)

theorem Consistent.release (h : o.Consistent) : (o.release i).Consistent := by
  constructor
  · intro j s hs
    exact h.acquired j s (mem_release_iff.mp hs).2
  · intro j s hs hreleased
    obtain ⟨hj, hs⟩ := mem_release_iff.mp hs
    rcases List.mem_append.mp hreleased with hreleased | hreleased
    · exact h.not_released j s hs hreleased
    · exact hj (h.unique j i s hs (Option.mem_toList.mp hreleased))
  · intro j k s hj hk
    exact h.unique j k s (mem_release_iff.mp hj).2 (mem_release_iff.mp hk).2
  · intro s hs
    rcases List.mem_append.mp hs with hs | hs
    · exact h.released_subset hs
    · exact h.acquired i s (Option.mem_toList.mp hs)

theorem mem_put_acquired_iff (hnone : o.holds i = none) {r : Option ρ}
    (hfresh : ∀ s ∈ r, s ∉ o.acquired) {s : ρ} (hs : s ∈ o.acquired) {j : ι} :
    s ∈ (o.put i r).holds j ↔ s ∈ o.holds j := by
  rw [mem_put_iff]
  constructor
  · rintro (⟨-, hr⟩ | ⟨-, hj⟩)
    · exact absurd hs (hfresh s hr)
    · exact hj
  · intro hj
    refine .inr ⟨?_, hj⟩
    rintro rfl
    simp [hnone] at hj

variable [DecidableEq ρ]

/-- What an owner holds is lost when something is put in its place, and nothing else is. -/
theorem settled_put_iff (h : o.Consistent) {r : Option ρ} (hfresh : ∀ s ∈ r, s ∉ o.acquired) :
    (o.put i r).Settled ↔ o.Settled ∧ o.holds i = none := by
  constructor
  · intro hsettled
    have hnone : o.holds i = none := by
      rw [Option.eq_none_iff_forall_not_mem]
      intro s hs
      have hcount : o.released.count s = 0 := List.count_eq_zero.mpr (h.not_released i s hs)
      rcases hsettled s (List.mem_append_left _ (h.acquired i s hs)) with ⟨⟨j, hj⟩, -⟩ | ⟨-, hone⟩
      · rcases mem_put_iff.mp hj with ⟨-, hr⟩ | ⟨hj, hs'⟩
        · exact hfresh s hr (h.acquired i s hs)
        · exact hj (h.unique j i s hs' hs)
      · exact absurd (hcount.symm.trans hone) Nat.zero_ne_one
    refine ⟨fun s hs => ?_, hnone⟩
    have hsettled := hsettled s (List.mem_append_left _ hs)
    simp only [mem_put_acquired_iff hnone hfresh hs] at hsettled
    exact hsettled
  · rintro ⟨hsettled, hnone⟩ s hs
    rcases List.mem_append.mp hs with hs | hs
    · simp only [mem_put_acquired_iff hnone hfresh hs]
      exact hsettled s hs
    · have hr := Option.mem_toList.mp hs
      refine .inl ⟨⟨i, mem_put_iff.mpr (.inl ⟨rfl, hr⟩)⟩, List.count_eq_zero.mpr ?_⟩
      exact fun hreleased => hfresh s hr (h.released_subset hreleased)

theorem settled_release_iff (h : o.Consistent) : (o.release i).Settled ↔ o.Settled := by
  refine forall₂_congr fun s hs => ?_
  by_cases hi : s ∈ o.holds i
  · have hgone : ∀ j, s ∉ (o.release i).holds j := by
      intro j hj
      obtain ⟨hne, hj⟩ := mem_release_iff.mp hj
      exact hne (h.unique j i s hj hi)
    have hcount : o.released.count s = 0 := List.count_eq_zero.mpr (h.not_released i s hi)
    have hcount' : (o.release i).released.count s = 1 := by
      rw [release, Option.mem_def.mp hi, List.count_append, hcount]
      simp
    exact iff_of_true (.inr ⟨hgone, hcount'⟩) (.inl ⟨⟨i, hi⟩, hcount⟩)
  · have hother : ∀ j, s ∈ (o.release i).holds j ↔ s ∈ o.holds j := by
      intro j
      rw [mem_release_iff, and_iff_right_iff_imp]
      rintro hj rfl
      exact hi hj
    have hcount : (o.release i).released.count s = o.released.count s := by
      have hzero : (o.holds i).toList.count s = 0 :=
        List.count_eq_zero.mpr fun hmem => hi (Option.mem_toList.mp hmem)
      rw [release, List.count_append, hzero, Nat.add_zero]
    simp only [hother, hcount]

section Numbered

variable {o : Ownership ι Nat} {r : Option Nat}

theorem Numbered.put (h : Numbered o) (i : ι) (hr : r = some o.acquired.length ∨ r = none) :
    Numbered (o.put i r) where
  consistent := h.consistent.put (h.fresh hr)
  number s hmem := by
    simp only [Ownership.put, List.mem_append, List.length_append] at hmem ⊢
    rcases hmem with hmem | hmem
    · exact Nat.lt_add_right _ (h.number s hmem)
    · rcases hr with rfl | rfl
      · rw [Option.toList_some, List.mem_singleton] at hmem
        simp [hmem]
      · cases hmem

theorem Numbered.release (h : Numbered o) (i : ι) : Numbered (o.release i) :=
  ⟨h.consistent.release, h.number⟩

theorem Numbered.settled_put_iff (h : Numbered o) (i : ι)
    (hr : r = some o.acquired.length ∨ r = none) :
    (o.put i r).Settled ↔ o.Settled ∧ o.holds i = none :=
  Ownership.settled_put_iff h.consistent (h.fresh hr)

end Numbered

end Ownership

end Coffee.Library
