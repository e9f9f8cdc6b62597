import Mathlib.Data.List.Basic
import Mathlib.Order.Defs.Unbundled

/-! # Sets in the order of a key

A set whose members are kept in the strict order of a key; a member whose key is there already is
refused. What is inserted in order comes out as it went in.
-/

namespace Coffee.Library

universe u v

variable {α : Type u} {κ : Type v} [LT κ]

/-- A list in strict order of a key. -/
structure OrderedSet (key : α → κ) where
  elements : List α
  sorted : elements.Pairwise fun a b => key a < key b

namespace OrderedSet

variable [DecidableLT κ] (key : α → κ)

def place (a : α) : List α → Option (List α)
  | [] => some [a]
  | b :: elements =>
    if key a < key b then some (a :: b :: elements)
    else if key b < key a then (place a elements).map (b :: ·)
    else none

variable {key}

theorem mem_place_iff {a : α} {elements placed : List α} (h : place key a elements = some placed)
    (b : α) : b ∈ placed ↔ b = a ∨ b ∈ elements := by
  induction elements generalizing placed with
  | nil =>
    cases h
    simp
  | cons c elements ih =>
    rw [place] at h
    split at h
    · cases h
      exact List.mem_cons
    · split at h
      · obtain ⟨rest, hrest, rfl⟩ := Option.map_eq_some_iff.mp h
        rw [List.mem_cons, List.mem_cons, ih hrest]
        exact or_left_comm
      · cases h

theorem place_last [Std.Asymm fun x y : κ => x < y] {a : α} {elements : List α}
    (h : ∀ b ∈ elements, key b < key a) : place key a elements = some (elements ++ [a]) := by
  induction elements with
  | nil => rfl
  | cons b elements ih =>
    obtain ⟨hb, helements⟩ := List.forall_mem_cons.mp h
    rw [place, if_neg (Std.Asymm.asymm _ _ hb), if_pos hb, ih helements]
    rfl

variable [IsTrans κ fun x y => x < y]

theorem sorted_place {a : α} {elements placed : List α} (h : place key a elements = some placed)
    (hsorted : elements.Pairwise fun a b => key a < key b) :
    placed.Pairwise fun a b => key a < key b := by
  induction elements generalizing placed with
  | nil =>
    cases h
    exact List.pairwise_singleton _ a
  | cons b elements ih =>
    obtain ⟨hb, helements⟩ := List.pairwise_cons.mp hsorted
    rw [place] at h
    split at h
    · next hlt =>
      cases h
      refine List.pairwise_cons.mpr ⟨?_, hsorted⟩
      intro c hc
      rcases List.mem_cons.mp hc with rfl | hmem
      · exact hlt
      · exact Trans.trans hlt (hb c hmem)
    · split at h
      · next hlt =>
        obtain ⟨rest, hrest, rfl⟩ := Option.map_eq_some_iff.mp h
        refine List.pairwise_cons.mpr ⟨?_, ih hrest helements⟩
        intro c hc
        rcases (mem_place_iff hrest c).mp hc with rfl | hmem
        · exact hlt
        · exact hb c hmem
      · cases h

def empty : OrderedSet key := ⟨[], .nil⟩

def insert (set : OrderedSet key) (a : α) : Option (OrderedSet key) :=
  match h : place key a set.elements with
  | some placed => some ⟨placed, sorted_place h set.sorted⟩
  | none => none

theorem mem_insert_iff {set set' : OrderedSet key} {a : α} (h : set.insert a = some set') (b : α) :
    b ∈ set'.elements ↔ b = a ∨ b ∈ set.elements := by
  unfold insert at h
  split at h
  · next placed hplaced =>
    cases h
    exact mem_place_iff hplaced b
  · cases h

theorem insert_last [Std.Asymm fun x y : κ => x < y] (set : OrderedSet key) {a : α}
    (h : ∀ b ∈ set.elements, key b < key a) : ∃ set', set.insert a = some set' ∧ set'.elements = set.elements ++ [a] := by
  have hplace := place_last h
  unfold insert
  split
  · next placed hplaced =>
    rw [hplace, Option.some.injEq] at hplaced
    exact ⟨_, rfl, hplaced.symm⟩
  · next hnone =>
    rw [hplace] at hnone
    cases hnone

end OrderedSet

end Coffee.Library
