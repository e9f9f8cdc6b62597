import Mathlib.Data.List.Basic

/-! # Walks along a list

A walk passes the elements of one kind and stops at the first of another.
-/

namespace Coffee.Library.Walk

variable {α : Type*}

/-- The walk stops at an element behind elements that it passes. -/
def Stops (pass stop : α → Prop) (as : List α) : Prop :=
  ∃ before a after, as = before ++ a :: after ∧ stop a ∧ ∀ other ∈ before, pass other

variable {pass stop pass' stop' : α → Prop} {a : α} {as : List α}

@[simp] theorem not_stops_nil : ¬ Stops pass stop [] := by
  rintro ⟨before, a, after, hsplit, -⟩
  simp at hsplit

theorem stops_cons : Stops pass stop (a :: as) ↔ stop a ∨ pass a ∧ Stops pass stop as := by
  constructor
  · rintro ⟨before, other, after, hsplit, hstop, hpass⟩
    cases before with
    | nil =>
      obtain ⟨rfl, -⟩ := List.cons.inj hsplit
      exact .inl hstop
    | cons first before =>
      obtain ⟨rfl, rfl⟩ := List.cons.inj hsplit
      obtain ⟨hfirst, hbefore⟩ := List.forall_mem_cons.mp hpass
      exact .inr ⟨hfirst, before, other, after, rfl, hstop, hbefore⟩
  · rintro (hstop | ⟨hpass, before, other, after, rfl, hstop, hbefore⟩)
    · exact ⟨[], a, as, rfl, hstop, List.forall_mem_nil _⟩
    · exact ⟨a :: before, other, after, rfl, hstop, List.forall_mem_cons.mpr ⟨hpass, hbefore⟩⟩

theorem stops_cons_of_stop (h : stop a) : Stops pass stop (a :: as) := stops_cons.mpr (.inl h)

theorem stops_cons_of_pass (hpass : pass a) (hstop : ¬ stop a) :
    Stops pass stop (a :: as) ↔ Stops pass stop as := by
  rw [stops_cons]
  constructor
  · rintro (h | ⟨-, h⟩)
    · exact absurd h hstop
    · exact h
  · intro h
    exact .inr ⟨hpass, h⟩

theorem not_stops_cons_of_neither (hpass : ¬ pass a) (hstop : ¬ stop a) :
    ¬ Stops pass stop (a :: as) := by
  rw [stops_cons]
  rintro (h | ⟨h, -⟩)
  · exact hstop h
  · exact hpass h

/-- The walk may be cut at the first element where it stops. -/
theorem stops_first : Stops (fun a => pass a ∧ ¬ stop a) stop as ↔ Stops pass stop as := by
  induction as with
  | nil => simp
  | cons a as ih =>
    rw [stops_cons, stops_cons, ih]
    rcases Classical.em (stop a) with hstop | hstop
    · exact iff_of_true (.inl hstop) (.inl hstop)
    · simp [hstop]

theorem stops_congr (hpass : ∀ a ∈ as, pass a ↔ pass' a) (hstop : ∀ a ∈ as, stop a ↔ stop' a) :
    Stops pass stop as ↔ Stops pass' stop' as := by
  induction as with
  | nil => simp
  | cons a as ih =>
    obtain ⟨ha, hpass⟩ := List.forall_mem_cons.mp hpass
    obtain ⟨ha', hstop⟩ := List.forall_mem_cons.mp hstop
    rw [stops_cons, stops_cons, ha, ha', ih hpass hstop]

end Coffee.Library.Walk
