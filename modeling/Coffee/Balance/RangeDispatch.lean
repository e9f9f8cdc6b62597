import Coffee.Balance.RoundRobin
import Coffee.Library.Chase

/-! # Dispatch by ranges

A `StrategyByRange` hands a request over to the strategy of the range that contains its identifier,
which may be a `StrategyByRange` again. `addRange` refuses to associate a strategy with itself; the
chains of several associations it does not look at.
-/

namespace Coffee.Balance

open Coffee.Basis Coffee.Library

/-- Strategies are shared, and a number stands for the pointer to one. -/
structure Range where
  bottom : Int
  top : Int
  strategy : Nat
deriving DecidableEq, Repr

/-- The strategies that choose from a resource list themselves come with what they are shown as and
with what they make of an identifier. -/
inductive Strategy where
  | StrategyByRange (m_ranges : List Range)
  | fromResources (asString : Bytes) (apply : Int → Except ResourceUnavailableException Resource)

namespace Strategy

def asString : Strategy → Bytes
  | StrategyByRange _ => text "balance.Strategy \x7b " ++ NamedObject.asString (text "balance::ByRange") ++
      text " \x7d"
  | fromResources asString _ => asString

end Strategy

abbrev Collection := Nat → Strategy

namespace Collection

def hides (newBottom newTop : Int) (range : Range) : Bool :=
  (range.bottom ≤ newBottom && newBottom ≤ range.top) ||
    (range.bottom ≤ newTop && newTop ≤ range.top) ||
    (newBottom ≤ range.bottom && range.top ≤ newTop)

def addRange (collection : Collection) (this : Nat) (m_ranges : List Range)
    (newBottom newTop : Int) : Option Nat → Except RuntimeException (List Range)
  | none => .error ⟨(collection this).asString ++ text " can not associate a null Strategy"⟩
  | some strategy =>
    if strategy = this then
      .error ⟨(collection this).asString ++ text " can not generate a recursive association"⟩
    else if newTop < newBottom then
      .error ⟨(collection this).asString ++ text " | invalid range (bottom > top)"⟩
    else match m_ranges.find? (hides newBottom newTop) with
      | some range => .error ⟨(collection range.strategy).asString ++ text " would be hidden by " ++
          (collection strategy).asString⟩
      | none => .ok (m_ranges ++ [⟨newBottom, newTop, strategy⟩])

def findRange (m_ranges : List Range) (identifier : Int) : Option Range :=
  m_ranges.find? fun range => range.bottom ≤ identifier && identifier ≤ range.top

/-- `fuel` bounds the depth of the calls. -/
def apply (collection : Collection) :
    Nat → Nat → Int → Option (Except ResourceUnavailableException Resource)
  | 0, _, _ => none
  | fuel + 1, this, identifier =>
    match collection this with
    | .fromResources _ choose => some (choose identifier)
    | .StrategyByRange m_ranges =>
      match findRange m_ranges identifier with
      | none => some (.error
          ⟨text "Key=" ++ Basis.asString identifier ++ text " does not have a defined range"⟩)
      | some range => apply collection fuel range.strategy identifier

def Terminates (collection : Collection) : Prop :=
  ∀ this identifier, ∃ fuel result, collection.apply fuel this identifier = some result

structure Call where
  this : Nat
  bottom : Int
  top : Int
  strategy : Option Nat
deriving DecidableEq, Repr

/-- `addRange` is a member of `StrategyByRange` only. -/
def step (collection : Collection) (call : Call) : Collection :=
  match collection call.this with
  | .fromResources _ _ => collection
  | .StrategyByRange m_ranges =>
    match collection.addRange call.this m_ranges call.bottom call.top call.strategy with
    | .error _ => collection
    | .ok m_ranges => Function.update collection call.this (.StrategyByRange m_ranges)

/-- The constructed strategies, of which those by range have no range yet. -/
def instantiate (resources : Nat → Option (Bytes × (Int → Except ResourceUnavailableException
    Resource))) : Collection := fun i =>
  match resources i with
  | none => .StrategyByRange []
  | some (asString, apply) => .fromResources asString apply

/-- The strategy that a strategy hands the identifier over to. -/
def next (collection : Collection) (identifier : Int) (this : Nat) : Option Nat :=
  match collection this with
  | .fromResources _ _ => none
  | .StrategyByRange m_ranges => (findRange m_ranges identifier).map Range.strategy

/-- The call associates a strategy from which an identifier of the range is handed over, in any
number of steps, to the strategy that is called. -/
def LeadsBack (collection : Collection) (call : Call) : Prop :=
  ∃ m_ranges strategy, collection call.this = .StrategyByRange m_ranges ∧
    call.strategy = some strategy ∧
    (collection.addRange call.this m_ranges call.bottom call.top call.strategy).isOk = true ∧
    ∃ identifier, call.bottom ≤ identifier ∧ identifier ≤ call.top ∧
      Chase.Leads (collection.next identifier) strategy call.this

variable {collection : Collection}

theorem apply_some_iff {this : Nat} {identifier : Int} :
    (∃ fuel result, collection.apply fuel this identifier = some result) ↔
      Chase.Stops (collection.next identifier) this := by
  constructor
  · rintro ⟨fuel, result, happly⟩
    induction fuel generalizing this with
    | zero => cases happly
    | succ fuel ih =>
      rw [apply] at happly
      cases hthis : collection this with
      | fromResources asString choose => exact Chase.stops_of_none (by simp [next, hthis])
      | StrategyByRange m_ranges =>
        cases hrange : findRange m_ranges identifier with
        | none => exact Chase.stops_of_none (by simp [next, hthis, hrange])
        | some range =>
          have hnext : collection.next identifier this = some range.strategy := by
            simp [next, hthis, hrange]
          simp only [hthis, hrange] at happly
          exact (Chase.stops_iff_next hnext).mpr (ih happly)
  · intro hstops
    induction hstops with
    | intro this _ ih =>
      cases hthis : collection this with
      | fromResources asString choose => exact ⟨1, choose identifier, by simp [apply, hthis]⟩
      | StrategyByRange m_ranges =>
        cases hrange : findRange m_ranges identifier with
        | none =>
          refine ⟨1, ?_⟩
          simp only [apply, hthis, hrange]
          exact ⟨_, rfl⟩
        | some range =>
          have hnext : collection.next identifier this = some range.strategy := by
            simp [next, hthis, hrange]
          obtain ⟨fuel, result, happly⟩ := ih range.strategy hnext
          exact ⟨fuel + 1, result, by simp only [apply, hthis, hrange, happly]⟩

theorem terminates_iff :
    collection.Terminates ↔ ∀ identifier this, Chase.Stops (collection.next identifier) this :=
  ⟨fun h identifier this => apply_some_iff.mp (h this identifier),
    fun h this identifier => apply_some_iff.mpr (h identifier this)⟩

theorem addRange_eq_ok {this : Nat} {m_ranges ranges : List Range} {newBottom newTop : Int}
    {strategy : Option Nat}
    (h : collection.addRange this m_ranges newBottom newTop strategy = .ok ranges) :
    ∃ s, strategy = some s ∧ newBottom ≤ newTop ∧
      (∀ range ∈ m_ranges, hides newBottom newTop range = false) ∧
      ranges = m_ranges ++ [⟨newBottom, newTop, s⟩] := by
  cases strategy with
  | none => cases h
  | some s =>
    rw [addRange] at h
    split at h
    · cases h
    · split at h
      · cases h
      · rename_i horder
        split at h
        · cases h
        · rename_i hfree
          cases h
          refine ⟨s, rfl, Int.not_lt.mp horder, fun range hmem => ?_, rfl⟩
          simpa using List.find?_eq_none.mp hfree range hmem

theorem findRange_of_hides {m_ranges : List Range} {newBottom newTop identifier : Int}
    (hfree : ∀ range ∈ m_ranges, hides newBottom newTop range = false)
    (hbottom : newBottom ≤ identifier) (htop : identifier ≤ newTop) :
    findRange m_ranges identifier = none := by
  refine List.find?_eq_none.mpr fun range hmem hcontains => ?_
  have hhides := hfree range hmem
  simp only [hides, Bool.or_eq_false_iff, Bool.and_eq_false_iff, decide_eq_false_iff_not] at hhides
  simp only [Bool.and_eq_true, decide_eq_true_eq] at hcontains
  omega

theorem step_cases (collection : Collection) (call : Call) :
    (collection.step call = collection ∧ ¬ collection.LeadsBack call) ∨
      ∃ m_ranges s, collection call.this = .StrategyByRange m_ranges ∧ call.strategy = some s ∧
        (∀ range ∈ m_ranges, hides call.bottom call.top range = false) ∧
        (collection.LeadsBack call ↔ ∃ identifier, call.bottom ≤ identifier ∧
          identifier ≤ call.top ∧ Chase.Leads (collection.next identifier) s call.this) ∧
        collection.step call = Function.update collection call.this
          (.StrategyByRange (m_ranges ++ [⟨call.bottom, call.top, s⟩])) := by
  unfold step LeadsBack
  cases hthis : collection call.this with
  | fromResources asString choose =>
    refine Or.inl ⟨rfl, ?_⟩
    rintro ⟨m_ranges, s, hranges, -⟩
    cases hranges
  | StrategyByRange m_ranges =>
    cases hadd : collection.addRange call.this m_ranges call.bottom call.top call.strategy with
    | error ex =>
      refine Or.inl ⟨by simp only [hadd], ?_⟩
      rintro ⟨m_ranges', s, hranges, -, hok, -⟩
      cases hranges
      simp [hadd, Except.isOk, Except.toBool] at hok
    | ok ranges =>
      obtain ⟨s, hstrategy, horder, hfree, rfl⟩ := addRange_eq_ok hadd
      refine Or.inr ⟨m_ranges, s, rfl, hstrategy, hfree, ?_, by simp only [hadd]⟩
      constructor
      · rintro ⟨m_ranges', s', hranges, hs', -, hleads⟩
        cases hstrategy.symm.trans hs'
        exact hleads
      · intro hleads
        exact ⟨m_ranges, s, rfl, hstrategy, by rw [hadd]; rfl, hleads⟩

theorem next_added {this s : Nat} {m_ranges : List Range} {newBottom newTop : Int}
    (hthis : collection this = .StrategyByRange m_ranges)
    (hfree : ∀ range ∈ m_ranges, hides newBottom newTop range = false) (identifier : Int) :
    next (Function.update collection this
        (.StrategyByRange (m_ranges ++ [⟨newBottom, newTop, s⟩]))) identifier =
      if newBottom ≤ identifier ∧ identifier ≤ newTop then
        Function.update (collection.next identifier) this (some s)
      else collection.next identifier := by
  funext x
  by_cases hx : x = this
  · subst hx
    split
    · rename_i hinside
      have hnone := findRange_of_hides hfree hinside.1 hinside.2
      simp only [findRange] at hnone
      simp [next, findRange, List.find?_append, hnone, hinside]
    · rename_i houtside
      have hsingle : [(⟨newBottom, newTop, s⟩ : Range)].find?
          (fun range => range.bottom ≤ identifier && identifier ≤ range.top) = none := by
        simpa using houtside
      simp [next, findRange, List.find?_append, hsingle, hthis]
  · have hsame : next (Function.update collection this
        (.StrategyByRange (m_ranges ++ [⟨newBottom, newTop, s⟩]))) identifier x =
          collection.next identifier x := by
      rw [next, Function.update_of_ne hx, next]
    rw [hsame]
    split
    · rw [Function.update_of_ne hx]
    · rfl

theorem terminates_step_iff (collection : Collection) (call : Call) :
    (collection.step call).Terminates ↔ collection.Terminates ∧ ¬ collection.LeadsBack call := by
  rcases step_cases collection call with
    ⟨hsame, hnot⟩ | ⟨m_ranges, s, hthis, hstrategy, hfree, hleads, hstep⟩
  · rw [hsame]
    exact (and_iff_left hnot).symm
  · have hnext := @next_added collection call.this s m_ranges _ _ hthis hfree
    have hnone : ∀ identifier, call.bottom ≤ identifier ∧ identifier ≤ call.top →
        collection.next identifier call.this = none := fun identifier hinside => by
      simp [next, hthis, findRange_of_hides hfree hinside.1 hinside.2]
    rw [hstep, terminates_iff, terminates_iff, hleads]
    constructor
    · intro hstops
      have hbefore : ∀ identifier x, Chase.Stops (collection.next identifier) x := by
        intro identifier x
        refine Chase.Stops.mono (fun y z hyz => ?_) (hstops identifier x)
        rw [hnext]
        split
        · rename_i hinside
          exact Chase.update_of_next (hnone identifier hinside) s hyz
        · exact hyz
      refine ⟨hbefore, ?_⟩
      rintro ⟨identifier, hbottom, htop, hback⟩
      have hnow := hstops identifier
      rw [hnext, if_pos ⟨hbottom, htop⟩] at hnow
      exact (Chase.stops_update_iff (hbefore identifier) (hnone identifier ⟨hbottom, htop⟩)).mp
        hnow hback
    · rintro ⟨hbefore, hback⟩ identifier
      rw [hnext]
      split
      · rename_i hinside
        refine (Chase.stops_update_iff (hbefore identifier) (hnone identifier hinside)).mpr ?_
        exact fun hleads => hback ⟨identifier, hinside.1, hinside.2, hleads⟩
      · exact hbefore identifier

/-- Behind any calls of `addRange` every request of every identifier ends, with a resource or an
exception, just when no call associates a strategy that already hands an identifier of the range
over to the strategy that is called. -/
theorem terminates_iff_not_leadsBack (resources : Nat → Option (Bytes ×
    (Int → Except ResourceUnavailableException Resource))) (calls : List Call) :
    (Runs.run step (instantiate resources) calls).Terminates ↔
      Runs.Meets step (fun collection call => ¬ collection.LeadsBack call) (instantiate resources)
        calls := by
  refine Runs.holds_iff_meets terminates_step_iff (terminates_iff.mpr fun identifier this => ?_) calls
  apply Chase.stops_of_none
  unfold next instantiate
  cases resources this with
  | none => rfl
  | some strategy => rfl

theorem not_terminates : ¬ (Runs.run step (instantiate fun _ => none)
    [⟨0, 1, 9, some 1⟩, ⟨1, 5, 5, some 0⟩]).Terminates := by
  intro h
  have hthere : next (Runs.run step (instantiate fun _ => none)
      [⟨0, 1, 9, some 1⟩, ⟨1, 5, 5, some 0⟩]) 5 0 = some 1 := rfl
  exact Chase.not_stops_of_loop hthere (Relation.ReflTransGen.single rfl) (terminates_iff.mp h 5 0)

end Collection

end Coffee.Balance
