import Coffee.Balance.RangeDispatch
import Mathlib

/-! # Ranges stay disjoint

`addRange` refuses what has an identifier in common with a stored range, so at most one range
contains an identifier, and the order of the ranges does not matter.
-/

namespace Coffee.Balance

open Coffee.Basis Coffee.Library

/-- The arguments of `addRange`. -/
structure Addition where
  bottom : Int
  top : Int
  strategy : Option Nat
deriving DecidableEq, Repr

namespace Range

def identifiers (range : Range) : Set Int := Set.Icc range.bottom range.top

def addition (range : Range) : Addition := ⟨range.bottom, range.top, some range.strategy⟩

theorem contains_iff {range : Range} {identifier : Int} :
    (range.bottom ≤ identifier && identifier ≤ range.top) = true ↔
      identifier ∈ range.identifiers := by
  simp [identifiers]

end Range

namespace Collection

/-- The ranges of `this` behind a call, which an exception leaves as they are. -/
def add (collection : Collection) (this : Nat) (m_ranges : List Range) (call : Addition) :
    List Range :=
  match collection.addRange this m_ranges call.bottom call.top call.strategy with
  | .ok m_ranges => m_ranges
  | .error _ => m_ranges

/-- What `addRange` refuses. -/
def Refuses (this : Nat) (m_ranges : List Range) (call : Addition) : Prop :=
  call.strategy = none ∨ call.strategy = some this ∨ call.top < call.bottom ∨
    ∃ range ∈ m_ranges, ¬ Disjoint (Set.Icc call.bottom call.top) range.identifiers

structure Separate (this : Nat) (m_ranges : List Range) : Prop where
  strategy : ∀ range ∈ m_ranges, range.strategy ≠ this
  ordered : ∀ range ∈ m_ranges, range.bottom ≤ range.top
  disjoint : m_ranges.Pairwise fun range range' => Disjoint range.identifiers range'.identifiers

variable {collection : Collection} {this : Nat} {m_ranges ranges : List Range}

/-- The three comparisons find every range that has an identifier in common. -/
theorem hides_iff {bottom top : Int} {range : Range} (h : bottom ≤ top)
    (hrange : range.bottom ≤ range.top) :
    hides bottom top range = true ↔ ¬ Disjoint (Set.Icc bottom top) range.identifiers := by
  rw [Range.identifiers, Set.not_disjoint_iff_nonempty_inter, Set.Icc_inter_Icc, Set.nonempty_Icc,
    sup_le_iff, le_inf_iff, le_inf_iff]
  simp only [hides, Bool.or_eq_true, Bool.and_eq_true, decide_eq_true_eq]
  omega

theorem addRange_cases (collection : Collection) (h : Separate this m_ranges) (call : Addition) :
    (Refuses this m_ranges call ∧
      ∃ ex, collection.addRange this m_ranges call.bottom call.top call.strategy = .error ex) ∨
    ∃ s, ¬ Refuses this m_ranges call ∧ call.strategy = some s ∧
      collection.addRange this m_ranges call.bottom call.top call.strategy =
        .ok (m_ranges ++ [⟨call.bottom, call.top, s⟩]) := by
  unfold Refuses
  cases call.strategy with
  | none => exact .inl ⟨.inl rfl, _, rfl⟩
  | some s =>
    rw [addRange]
    split
    · rename_i hself
      exact .inl ⟨.inr (.inl (congrArg some hself)), _, rfl⟩
    · rename_i hself
      split
      · rename_i hinverted
        exact .inl ⟨.inr (.inr (.inl hinverted)), _, rfl⟩
      · rename_i hinverted
        have horder : call.bottom ≤ call.top := Int.not_lt.mp hinverted
        split
        · rename_i range hfound
          have hmem := List.mem_of_find?_eq_some hfound
          have hhides := (hides_iff horder (h.ordered range hmem)).mp (List.find?_some hfound)
          exact .inl ⟨.inr (.inr (.inr ⟨range, hmem, hhides⟩)), _, rfl⟩
        · rename_i hfree
          refine .inr ⟨s, ?_, rfl, rfl⟩
          rintro (hnone | hthis | hbelow | ⟨range, hmem, hcommon⟩)
          · cases hnone
          · exact hself (Option.some.inj hthis)
          · exact hinverted hbelow
          · exact List.find?_eq_none.mp hfree range hmem
              ((hides_iff horder (h.ordered range hmem)).mpr hcommon)

theorem addRange_error_iff (h : Separate this m_ranges) (call : Addition) :
    (∃ ex, collection.addRange this m_ranges call.bottom call.top call.strategy = .error ex) ↔
      Refuses this m_ranges call := by
  obtain ⟨hrefuses, herror⟩ | ⟨s, hnot, -, hok⟩ := addRange_cases collection h call
  · exact iff_of_true herror hrefuses
  · refine iff_of_false ?_ hnot
    rintro ⟨ex, herror⟩
    rw [hok] at herror
    cases herror

theorem add_of_refuses (h : Separate this m_ranges) {call : Addition}
    (hrefuses : Refuses this m_ranges call) : collection.add this m_ranges call = m_ranges := by
  obtain ⟨ex, herror⟩ := (@addRange_error_iff collection this m_ranges h call).mpr hrefuses
  rw [add, herror]

theorem add_of_accepts (h : Separate this m_ranges) {call : Addition}
    (haccepts : ¬ Refuses this m_ranges call) : ∃ s, call.strategy = some s ∧
      collection.add this m_ranges call = m_ranges ++ [⟨call.bottom, call.top, s⟩] := by
  obtain ⟨hrefuses, -⟩ | ⟨s, -, hs, hok⟩ := addRange_cases collection h call
  · exact absurd hrefuses haccepts
  · exact ⟨s, hs, by rw [add, hok]⟩

theorem separate_append_iff (h : Separate this m_ranges) (range : Range) :
    Separate this (m_ranges ++ [range]) ↔ ¬ Refuses this m_ranges range.addition := by
  have hstrategy : range.addition.strategy = some this ↔ range.strategy = this :=
    Option.some_inj
  rw [Refuses, hstrategy]
  constructor
  · rintro hboth (hnone | hself | hbelow | ⟨range', hmem, hcommon⟩)
    · cases hnone
    · exact hboth.strategy range (by simp) hself
    · exact absurd (hboth.ordered range (by simp)) (Int.not_le.mpr hbelow)
    · have hcross := (List.pairwise_append.mp hboth.disjoint).2.2
      exact hcommon (hcross range' hmem range (by simp)).symm
  · intro hnot
    simp only [not_or, not_exists, not_and, not_not] at hnot
    obtain ⟨-, hself, hbelow, hfree⟩ := hnot
    constructor
    · rw [List.forall_mem_append, List.forall_mem_singleton]
      exact ⟨h.strategy, hself⟩
    · rw [List.forall_mem_append, List.forall_mem_singleton]
      exact ⟨h.ordered, Int.not_lt.mp hbelow⟩
    · refine List.pairwise_append.mpr ⟨h.disjoint, List.pairwise_singleton _ _, ?_⟩
      intro range' hmem new hnew
      rw [List.mem_singleton.mp hnew]
      exact (hfree range' hmem).symm

theorem Separate.add (h : Separate this m_ranges) (call : Addition) :
    Separate this (collection.add this m_ranges call) := by
  by_cases hrefuses : Refuses this m_ranges call
  · rwa [add_of_refuses h hrefuses]
  · obtain ⟨s, hs, hadd⟩ := @add_of_accepts collection _ _ h _ hrefuses
    rw [hadd, separate_append_iff h]
    rwa [Range.addition, ← hs]

theorem separate_run (collection : Collection) (this : Nat) (calls : List Addition) :
    Separate this (Runs.run (collection.add this) [] calls) :=
  Runs.invariant (fun _ call h => h.add call) ⟨nofun, nofun, List.Pairwise.nil⟩ calls

theorem Separate.findRange_iff (h : Separate this m_ranges) {range : Range} {identifier : Int} :
    findRange m_ranges identifier = some range ↔
      range ∈ m_ranges ∧ identifier ∈ range.identifiers := by
  unfold findRange
  constructor
  · intro hfound
    have hcontains := List.find?_some hfound
    exact ⟨List.mem_of_find?_eq_some hfound, Range.contains_iff.mp hcontains⟩
  · rintro ⟨hrange, hmem⟩
    cases hfound : m_ranges.find? fun range =>
        range.bottom ≤ identifier && identifier ≤ range.top with
    | none => exact absurd (Range.contains_iff.mpr hmem) (List.find?_eq_none.mp hfound range hrange)
    | some range' =>
      have hrange' := List.mem_of_find?_eq_some hfound
      have hcontains := List.find?_some hfound
      have hsymm : Std.Symm fun range range' : Range =>
          Disjoint range.identifiers range'.identifiers := ⟨fun _ _ hdisjoint => hdisjoint.symm⟩
      by_contra hne
      have hdisjoint := h.disjoint.forall hrange' hrange fun heq => hne (congrArg some heq)
      exact Set.disjoint_left.mp hdisjoint (Range.contains_iff.mp hcontains) hmem

theorem Separate.perm (h : Separate this m_ranges) (hperm : ranges.Perm m_ranges) :
    Separate this ranges where
  strategy range hmem := h.strategy range (hperm.subset hmem)
  ordered range hmem := h.ordered range (hperm.subset hmem)
  disjoint := (hperm.pairwise_iff fun hdisjoint => hdisjoint.symm).mpr h.disjoint

theorem run_addition (h : Separate this ranges) :
    Runs.run (collection.add this) [] (ranges.map Range.addition) = ranges := by
  induction ranges using List.reverseRecOn with
  | nil => rfl
  | append_singleton ranges range ih =>
    have hbefore : Separate this ranges :=
      ⟨fun range' hmem => h.strategy range' (List.mem_append_left _ hmem),
        fun range' hmem => h.ordered range' (List.mem_append_left _ hmem),
        (List.pairwise_append.mp h.disjoint).1⟩
    obtain ⟨s, hs, hadd⟩ := @add_of_accepts collection _ _ hbefore _
      ((separate_append_iff hbefore range).mp h)
    cases hs
    rw [List.map_append, List.map_singleton, Runs.run_concat, ih hbefore, hadd]
    rfl

/-- Behind any calls of `addRange` the stored ranges are not inverted and pairwise disjoint, a call
throws and leaves them as they are just where it is refused, an identifier is found in the one range
that contains it, and storing the ranges in another order stores and finds the same. -/
theorem addRange_separate (collection : Collection) (this : Nat) (calls : List Addition) :
    Separate this (Runs.run (collection.add this) [] calls) ∧
      (∀ call, ((∃ ex, collection.addRange this (Runs.run (collection.add this) [] calls) call.bottom
            call.top call.strategy = .error ex) ↔
          Refuses this (Runs.run (collection.add this) [] calls) call) ∧
        (Refuses this (Runs.run (collection.add this) [] calls) call →
          Runs.run (collection.add this) [] (calls ++ [call]) =
            Runs.run (collection.add this) [] calls)) ∧
      (∀ identifier range, findRange (Runs.run (collection.add this) [] calls) identifier =
          some range ↔ range ∈ Runs.run (collection.add this) [] calls ∧
            identifier ∈ range.identifiers) ∧
      ∀ ranges, ranges.Perm (Runs.run (collection.add this) [] calls) →
        Runs.run (collection.add this) [] (ranges.map Range.addition) = ranges ∧
        ∀ identifier, findRange ranges identifier =
          findRange (Runs.run (collection.add this) [] calls) identifier := by
  have h := separate_run collection this calls
  refine ⟨h, fun call => ⟨addRange_error_iff h call, fun hrefuses => ?_⟩,
    fun identifier range => h.findRange_iff, fun ranges hperm => ⟨run_addition (h.perm hperm), ?_⟩⟩
  · rw [Runs.run_concat, add_of_refuses h hrefuses]
  · intro identifier
    refine Option.ext fun range => ?_
    rw [(h.perm hperm).findRange_iff, h.findRange_iff, hperm.mem_iff]

/-- Of two ranges that intersect the first one is stored. -/
theorem not_findRange_comm : ¬ ∀ (collection : Collection) (this : Nat) (calls calls' : List Addition),
    calls.Perm calls' → ∀ identifier,
      findRange (Runs.run (collection.add this) [] calls) identifier =
        findRange (Runs.run (collection.add this) [] calls') identifier := by
  intro h
  have hfound := h (instantiate fun _ => none) 0 [⟨1, 5, some 1⟩, ⟨3, 8, some 2⟩]
    [⟨3, 8, some 2⟩, ⟨1, 5, some 1⟩] (List.Perm.swap _ _ _) 7
  revert hfound
  decide

end Collection

end Coffee.Balance
