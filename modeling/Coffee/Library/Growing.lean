import Mathlib.Data.List.Basic

/-! # Arrays that move when they grow

An array keeps its elements in a storage of some capacity. Appending to a full array moves the
elements to a new storage, and an iterator of an earlier storage denotes nothing any more.
-/

namespace Coffee.Library

universe u

structure Growing (α : Type u) where
  elements : List α
  capacity : Nat
  storage : Nat
  fits : elements.length ≤ capacity
deriving Repr

namespace Growing

structure Iterator where
  storage : Nat
  index : Nat
deriving DecidableEq, Repr

variable {α : Type u}

def empty : Growing α := ⟨[], 0, 0, Nat.le_refl 0⟩

def Full (v : Growing α) : Prop := v.elements.length = v.capacity

instance (v : Growing α) : Decidable v.Full := inferInstanceAs (Decidable (_ = _))

/-- The new capacity is what `grow` asks for, and one more than before at least. -/
def append (grow : Nat → Nat) (v : Growing α) (x : α) : Growing α :=
  if h : v.Full then
    { elements := v.elements ++ [x]
      capacity := max (grow v.capacity) (v.capacity + 1)
      storage := v.storage + 1
      fits := by
        rw [List.length_append, List.length_singleton, h]
        exact Nat.le_max_right _ _ }
  else
    { v with
      elements := v.elements ++ [x]
      fits := by
        rw [List.length_append, List.length_singleton]
        exact Nat.lt_of_le_of_ne v.fits h }

def first (v : Growing α) : Iterator := ⟨v.storage, 0⟩

/-- The iterator behind the last element. -/
def behind (v : Growing α) : Iterator := ⟨v.storage, v.elements.length⟩

def read? (v : Growing α) (i : Iterator) : Option α :=
  if i.storage = v.storage then v.elements[i.index]? else none

def Denotes (v : Growing α) (i : Iterator) : Prop :=
  i.storage = v.storage ∧ i.index < v.elements.length

instance (v : Growing α) (i : Iterator) : Decidable (v.Denotes i) :=
  inferInstanceAs (Decidable (_ ∧ _))

/-- The array has moved since it handed out the iterator. -/
def Stale (v : Growing α) (i : Iterator) : Prop := i.storage < v.storage

variable {v : Growing α} {i : Iterator}

theorem read?_isSome_iff : (v.read? i).isSome = true ↔ v.Denotes i := by
  unfold read? Denotes
  split
  · rename_i hstorage
    simp [hstorage]
  · rename_i hstorage
    simp [hstorage]

theorem Stale.not_denotes (h : v.Stale i) : ¬ v.Denotes i := fun hdenotes => Nat.ne_of_lt h hdenotes.1

@[simp] theorem elements_append (grow : Nat → Nat) (x : α) :
    (v.append grow x).elements = v.elements ++ [x] := by
  unfold append
  split <;> rfl

theorem Stale.append (h : v.Stale i) (grow : Nat → Nat) (x : α) : (v.append grow x).Stale i := by
  unfold Growing.append
  split
  · exact Nat.lt_succ_of_lt h
  · exact h

theorem stale_append (hstorage : i.storage = v.storage) (hfull : v.Full) (grow : Nat → Nat)
    (x : α) : (v.append grow x).Stale i := by
  rw [Growing.append, dif_pos hfull, Stale, hstorage]
  exact Nat.lt_succ_self _

theorem Denotes.append (h : v.Denotes i) (hroom : ¬ v.Full) (grow : Nat → Nat) (x : α) :
    (v.append grow x).Denotes i := by
  refine ⟨?_, ?_⟩
  · rw [Growing.append, dif_neg hroom]
    exact h.1
  · rw [elements_append, List.length_append]
    exact Nat.lt_add_right _ h.2

end Growing

end Coffee.Library
