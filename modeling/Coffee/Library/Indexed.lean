import Mathlib.Data.List.Nodup
import Mathlib.Logic.Equiv.Defs

/-! # Lists with an index

A family of lists whose elements have keys, and an index that says for each key in which list its
element is. No key is held twice, in one list or in two.
-/

namespace Coffee.Library

variable {α ι κ κ' : Type*}

section Update

variable [DecidableEq ι] {f : ι → Option α} {i j : ι} {a b : α}

theorem update_none (h : Function.update f i none j = some b) : j ≠ i ∧ f j = some b := by
  by_cases hj : j = i
  · rw [hj, Function.update_self] at h
    cases h
  · rw [Function.update_of_ne hj] at h
    exact ⟨hj, h⟩

theorem update_some (h : Function.update f i (some a) j = some b) :
    j = i ∧ a = b ∨ j ≠ i ∧ f j = some b := by
  by_cases hj : j = i
  · rw [hj, Function.update_self] at h
    exact Or.inl ⟨hj, Option.some.inj h⟩
  · rw [Function.update_of_ne hj] at h
    exact Or.inr ⟨hj, h⟩

end Update

structure Indexed (key : α → ι) (lists : κ → List α) (index : ι → Option (κ × α)) : Prop where
  held : ∀ k, ∀ a ∈ lists k, index (key a) = some (k, a)
  found : ∀ i k a, index i = some (k, a) → a ∈ lists k ∧ key a = i
  nodup : ∀ k, ((lists k).map key).Nodup

namespace Indexed

variable {key : α → ι} {lists : κ → List α} {index : ι → Option (κ × α)}

theorem empty (key : α → ι) : Indexed key (fun _ : κ => []) fun _ => none where
  held := fun _ _ h => absurd h List.not_mem_nil
  found := fun _ _ _ h => by cases h
  nodup := fun _ => List.nodup_nil

theorem unique (h : Indexed key lists index) {k k' : κ} {a b : α} (ha : a ∈ lists k)
    (hb : b ∈ lists k') (hkey : key a = key b) : k = k' ∧ a = b := by
  have hindex := h.held k a ha
  rw [hkey, h.held k' b hb] at hindex
  obtain ⟨hk, ha⟩ := Prod.mk.inj (Option.some.inj hindex)
  exact ⟨hk.symm, ha.symm⟩

theorem not_mem_of_none (h : Indexed key lists index) {i : ι} (hnone : index i = none) {k : κ}
    {a : α} (ha : a ∈ lists k) : key a ≠ i := by
  rintro rfl
  rw [h.held k a ha] at hnone
  cases hnone

theorem insert [DecidableEq κ] [DecidableEq ι] (h : Indexed key lists index) (k : κ) (a : α)
    (hnone : index (key a) = none) :
    Indexed key (Function.update lists k (a :: lists k))
      (Function.update index (key a) (some (k, a))) where
  held k' b hb := by
    by_cases hk : k' = k
    · subst hk
      rw [Function.update_self] at hb
      rcases List.mem_cons.mp hb with rfl | hb
      · exact Function.update_self _ _ _
      · rw [Function.update_of_ne (h.not_mem_of_none hnone hb)]
        exact h.held k' b hb
    · rw [Function.update_of_ne hk] at hb
      rw [Function.update_of_ne (h.not_mem_of_none hnone hb)]
      exact h.held k' b hb
  found i k' b hb := by
    rcases update_some hb with ⟨rfl, hplace⟩ | ⟨hi, hold⟩
    · obtain ⟨rfl, rfl⟩ := Prod.mk.inj hplace
      exact ⟨by simp, rfl⟩
    · obtain ⟨hmem, hkey⟩ := h.found i k' b hold
      refine ⟨?_, hkey⟩
      by_cases hk : k' = k
      · subst hk
        rw [Function.update_self]
        exact List.mem_cons_of_mem a hmem
      · rw [Function.update_of_ne hk]
        exact hmem
  nodup k' := by
    by_cases hk : k' = k
    · subst hk
      rw [Function.update_self, List.map_cons, List.nodup_cons]
      refine ⟨fun hmem => ?_, h.nodup k'⟩
      obtain ⟨b, hb, hkey⟩ := List.mem_map.mp hmem
      exact h.not_mem_of_none hnone hb hkey
    · rw [Function.update_of_ne hk]
      exact h.nodup k'

theorem remove [DecidableEq ι] (h : Indexed key lists index) (i : ι) :
    Indexed key (fun k => (lists k).filter fun a => key a ≠ i) (Function.update index i none) where
  held k a ha := by
    obtain ⟨hmem, hne⟩ := List.mem_filter.mp ha
    rw [Function.update_of_ne (of_decide_eq_true hne)]
    exact h.held k a hmem
  found j k a ha := by
    obtain ⟨hj, hold⟩ := update_none ha
    obtain ⟨hmem, hkey⟩ := h.found j k a hold
    exact ⟨List.mem_filter.mpr ⟨hmem, by simpa [hkey] using hj⟩, hkey⟩
  nodup k := (h.nodup k).sublist (List.filter_sublist.map key)

theorem rename (h : Indexed key lists index) (name : κ ≃ κ') :
    Indexed key (fun k => lists (name.symm k))
      (fun i => (index i).map fun place => (name place.1, place.2)) where
  held k a ha := by simp [h.held _ a ha]
  found i k a ha := by
    obtain ⟨⟨k', b⟩, hindex, hplace⟩ := Option.map_eq_some_iff.mp ha
    obtain ⟨rfl, rfl⟩ := Prod.mk.inj hplace
    obtain ⟨hmem, hkey⟩ := h.found i k' b hindex
    exact ⟨by simpa using hmem, hkey⟩
  nodup k := h.nodup (name.symm k)

/-- Taking out the first element of a list changes no other list. -/
theorem filter_tail [DecidableEq κ] [DecidableEq ι] (h : Indexed key lists index) {k : κ} {a : α}
    {rest : List α} (hk : lists k = a :: rest) :
    (fun k' => (lists k').filter fun b => key b ≠ key a) = Function.update lists k rest := by
  funext k'
  by_cases hsame : k' = k
  · subst hsame
    have hnodup := h.nodup k'
    rw [hk, List.map_cons, List.nodup_cons] at hnodup
    rw [Function.update_self, hk, List.filter_cons_of_neg (by simp), List.filter_eq_self]
    intro b hb
    exact decide_eq_true fun hkey => hnodup.1 (hkey ▸ List.mem_map_of_mem hb)
  · rw [Function.update_of_ne hsame, List.filter_eq_self]
    intro b hb
    have ha : a ∈ lists k := by simp [hk]
    exact decide_eq_true fun hkey => hsame (h.unique hb ha hkey).1

end Indexed

end Coffee.Library
