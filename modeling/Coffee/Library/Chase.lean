import Mathlib.Logic.Relation
import Mathlib.Logic.Function.Basic

/-! # Following a partial function

A place has at most one next place. Whether following them comes to a stop everywhere, and what one
more link changes about it.
-/

namespace Coffee.Library.Chase

open Relation

universe u

variable {α : Type u}

def Follows (next : α → Option α) (y x : α) : Prop := next x = some y

def Leads (next : α → Option α) : α → α → Prop := ReflTransGen fun x y => Follows next y x

/-- Following the places from `x` comes to a stop. -/
def Stops (next : α → Option α) (x : α) : Prop := Acc (Follows next) x

variable {next next' : α → Option α} {a b x : α}

theorem stops_of_none (h : next x = none) : Stops next x :=
  Acc.intro x fun _ hy => by cases h.symm.trans hy

theorem stops_iff_next (h : next a = some b) : Stops next a ↔ Stops next b := by
  refine ⟨fun hstops => hstops.inv h, fun hstops => Acc.intro a fun y hy => ?_⟩
  cases h.symm.trans hy
  exact hstops

/-- Fewer links stop wherever more links do. -/
theorem Stops.mono (hle : ∀ x y, next x = some y → next' x = some y) (h : Stops next' x) :
    Stops next x :=
  Subrelation.accessible (hle _ _) h

theorem Leads.mono (hle : ∀ x y, next x = some y → next' x = some y) (h : Leads next a b) :
    Leads next' a b :=
  ReflTransGen.mono (fun x y hxy => hle x y hxy) _ _ h

theorem not_stops_of_loop (hab : next a = some b) (hba : Leads next b a) : ¬ Stops next a := by
  intro h
  have hloop : ∀ x, Stops next x → Leads next b x → Leads next x a → False := by
    intro x hx
    induction hx with
    | intro x _ ih =>
      intro hto hback
      rcases ReflTransGen.cases_head hback with rfl | ⟨y, hxy, hya⟩
      · exact ih b hab ReflTransGen.refl hba
      · exact ih y hxy (hto.tail hxy) hya
  exact hloop a h hba ReflTransGen.refl

variable [DecidableEq α]

theorem update_of_next (hnone : next a = none) (b : α) {x y : α} (hxy : next x = some y) :
    Function.update next a (some b) x = some y := by
  have hne : x ≠ a := by
    rintro rfl
    cases hnone.symm.trans hxy
  rwa [Function.update_of_ne hne]

/-- A link put where everything came to a stop keeps the stops just when it does not lead back. -/
theorem stops_update_iff (h : ∀ x, Stops next x) (hnone : next a = none) :
    (∀ x, Stops (Function.update next a (some b)) x) ↔ ¬ Leads next b a := by
  have hlink : Function.update next a (some b) a = some b := Function.update_self a (some b) next
  constructor
  · intro hstops hleads
    exact not_stops_of_loop hlink (hleads.mono fun _ _ => update_of_next hnone b) (hstops a)
  · intro hback
    -- from `b` on the new link is never met
    have hbehind : ∀ x, Stops next x → Leads next b x →
        Stops (Function.update next a (some b)) x := by
      intro x hx
      induction hx with
      | intro x _ ih =>
        intro hleads
        have hne : x ≠ a := by
          rintro rfl
          exact hback hleads
        refine Acc.intro x fun y hy => ?_
        rw [Follows, Function.update_of_ne hne] at hy
        exact ih y hy (hleads.tail hy)
    have hb := hbehind b (h b) ReflTransGen.refl
    have hall : ∀ x, Stops next x → Stops (Function.update next a (some b)) x := by
      intro x hx
      induction hx with
      | intro x _ ih =>
        by_cases hxa : x = a
        · rw [hxa]
          exact (stops_iff_next hlink).mpr hb
        · refine Acc.intro x fun y hy => ?_
          rw [Follows, Function.update_of_ne hxa] at hy
          exact ih y hy
    exact fun x => hall x (h x)

end Coffee.Library.Chase
