import Mathlib.Logic.Relation

/-! # Dependencies

A node has a list of needs, each of which leads to a node or to nothing. What can be built up from
the nodes without needs meets no need that leads nowhere, and no cycle.
-/

namespace Coffee.Library.Dependency

open Relation

variable {α : Type*} (needs : α → List (Option α))

def Needs (a b : α) : Prop := some b ∈ needs a

/-- A need of the node leads nowhere. -/
def Unmet (a : α) : Prop := none ∈ needs a

/-- The node lies on a cycle of needs, or leads to one. -/
def LeadsToCycle (a : α) : Prop :=
  ∃ b, ReflTransGen (Needs needs) a b ∧ TransGen (Needs needs) b b

/-- All needs of the node lead to grounded nodes. -/
inductive Grounded : α → Prop
  | intro (a : α) (hmet : ¬ Unmet needs a) (h : ∀ b, Needs needs a b → Grounded b) : Grounded a

variable {needs} {a b : α}

theorem LeadsToCycle.head (hab : ReflTransGen (Needs needs) a b) (h : LeadsToCycle needs b) :
    LeadsToCycle needs a := by
  obtain ⟨c, hbc, hcycle⟩ := h
  exact ⟨c, hab.trans hbc, hcycle⟩

theorem Grounded.not_unmet (h : Grounded needs a) : ¬ Unmet needs a := by
  cases h with
  | intro _ hmet _ => exact hmet

theorem Grounded.not_leadsToCycle (h : Grounded needs a) : ¬ LeadsToCycle needs a := by
  induction h with
  | intro a hmet h ih =>
    rintro ⟨b, hab, hcycle⟩
    rcases hab.cases_head with rfl | ⟨c, hac, hcb⟩
    · -- the next node on the cycle leads back to it
      obtain ⟨c, hac, hca⟩ := TransGen.head'_iff.mp hcycle
      exact ih c hac ⟨a, hca, hcycle⟩
    · exact ih c hac ⟨b, hcb, hcycle⟩

end Coffee.Library.Dependency
