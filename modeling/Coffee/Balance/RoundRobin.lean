import Coffee.Basis.Text
import Coffee.Library.Growing
import Coffee.Library.Runs

/-! # Round robin over a resource list

`StrategyRoundRobin` keeps an iterator of the vector of its `ResourceList` from one call to the
next. The vector may grow in between, and where it moves to a new storage the iterator is lost.
-/

namespace Coffee.Balance

open Coffee.Basis Coffee.Library

structure Resource where
  m_name : Bytes
deriving DecidableEq, Repr

structure ResourceUnavailableException where
  message : Bytes
deriving DecidableEq, Repr

structure ResourceList where
  m_name : Bytes
  m_resources : Growing Resource
deriving Repr

namespace ResourceList

def countAvailableResources (isAvailable : Resource → Bool) (list : ResourceList) : Nat :=
  list.m_resources.elements.countP isAvailable

def asString (isAvailable : Resource → Bool) (list : ResourceList) : Bytes :=
  text "balance.ResourceList \x7b " ++ NamedObject.asString list.m_name ++ text " | Available = " ++
    Basis.asString (list.countAvailableResources isAvailable) ++ text " of " ++
    Basis.asString list.m_resources.elements.length ++ text " \x7d"

/-- A pointer that may be null, and how the vector grows is up to the library. -/
def add (grow : Nat → Nat) (isAvailable : Resource → Bool) (list : ResourceList) :
    Option Resource → Except RuntimeException Bool × ResourceList
  | none => (.error ⟨list.asString isAvailable ++ text " can not add an empty resource"⟩, list)
  | some resource =>
    if list.m_resources.elements.any (·.m_name == resource.m_name) then (.ok false, list)
    else (.ok true, { list with m_resources := list.m_resources.append grow resource })

/-- The resource is added, and the vector has no room for it. -/
def Moves (list : ResourceList) (resource : Option Resource) : Prop :=
  ∃ w ∈ resource, list.m_resources.elements.any (·.m_name == w.m_name) = false ∧
    list.m_resources.Full

def next (list : ResourceList) (ii : Growing.Iterator) : Growing.Iterator :=
  let ii := { ii with index := ii.index + 1 }
  if ii = list.m_resources.behind then list.m_resources.first else ii

end ResourceList

/-- The strategy with its list. `m_position` is empty until the first call. -/
structure StrategyRoundRobin where
  m_resources : ResourceList
  m_position : Option Growing.Iterator
deriving Repr

namespace StrategyRoundRobin

def asString (isAvailable : Resource → Bool) (strategy : StrategyRoundRobin) : Bytes :=
  text "balance.Strategy \x7b " ++ NamedObject.asString (text "balance::RoundRobin") ++ text "|" ++
    strategy.m_resources.asString isAvailable ++ text " \x7d"

/-- The loop of `apply` from `ww` until it comes back to the end. `none` is the dereference of an
iterator that denotes nothing; `fuel` bounds the rounds. -/
def search (isAvailable : Resource → Bool) (list : ResourceList) (last : Growing.Iterator) :
    Nat → Growing.Iterator → Option (Option (Resource × Growing.Iterator))
  | 0, _ => none
  | fuel + 1, ww => do
    let w ← list.m_resources.read? ww
    if isAvailable w then return some (w, ww)
    else if list.next ww = last then return none
    else search isAvailable list last fuel (list.next ww)

def position (strategy : StrategyRoundRobin) : Growing.Iterator :=
  strategy.m_position.getD strategy.m_resources.m_resources.first

def apply (isAvailable : Resource → Bool) (strategy : StrategyRoundRobin) :
    Option (Except ResourceUnavailableException Resource × StrategyRoundRobin) :=
  let list := strategy.m_resources
  let position := strategy.position
  let strategy := { strategy with m_position := some position }
  if position = list.m_resources.behind then
    some (.error ⟨list.m_name ++ text " is empty"⟩, strategy)
  else do
    let found ← search isAvailable list position list.m_resources.elements.length position
    match found with
    | some (w, ww) => return (.ok w, { strategy with m_position := some (list.next ww) })
    | none =>
      return (.error ⟨strategy.asString isAvailable ++ text " there is not any available resource"⟩,
        strategy)

/-- What is done with a list and a strategy over it. -/
inductive Call where
  | add (isAvailable : Resource → Bool) (resource : Option Resource)
  | apply (isAvailable : Resource → Bool)

def step (grow : Nat → Nat) (strategy : StrategyRoundRobin) : Call → Option StrategyRoundRobin
  | .add isAvailable resource =>
    some { strategy with m_resources := (strategy.m_resources.add grow isAvailable resource).2 }
  | .apply isAvailable => (strategy.apply isAvailable).map (·.2)

def instantiate (name : Bytes) : StrategyRoundRobin := ⟨⟨name, Growing.empty⟩, none⟩

/-- The position that a call dereferences denotes an element of the vector. The position is not
dereferenced where it is the end of the vector. -/
def PositionDenotes (strategy : StrategyRoundRobin) : Call → Prop
  | .add _ _ => True
  | .apply _ => strategy.position ≠ strategy.m_resources.m_resources.behind →
      strategy.m_resources.m_resources.Denotes strategy.position

instance (strategy : StrategyRoundRobin) : (call : Call) → Decidable (strategy.PositionDenotes call)
  | .add _ _ => .isTrue trivial
  | .apply _ => inferInstanceAs (Decidable (_ → _))

variable {isAvailable : Resource → Bool} {list : ResourceList} {strategy : StrategyRoundRobin}

theorem position_of_none (h : strategy.m_position = none) :
    strategy.position = strategy.m_resources.m_resources.first := by
  rw [position, h, Option.getD_none]

theorem position_of_some {i : Growing.Iterator} (h : strategy.m_position = some i) :
    strategy.position = i := by
  rw [position, h, Option.getD_some]

theorem search_stale {last : Growing.Iterator} (h : list.m_resources.Stale last) (fuel : Nat) :
    search isAvailable list last fuel last = none := by
  have hread : list.m_resources.read? last = none := by
    rw [← Option.not_isSome_iff_eq_none, Growing.read?_isSome_iff]
    exact h.not_denotes
  cases fuel with
  | zero => rfl
  | succ fuel => simp [search, hread]

theorem next_denotes {ww : Growing.Iterator} (h : list.m_resources.Denotes ww) :
    list.m_resources.Denotes (list.next ww) := by
  obtain ⟨hstorage, hindex⟩ := h
  unfold ResourceList.next
  dsimp only
  split
  · exact ⟨rfl, Nat.zero_lt_of_lt hindex⟩
  · rename_i hbehind
    refine ⟨hstorage, Nat.lt_of_le_of_ne hindex fun heq => hbehind ?_⟩
    rw [Growing.behind, ← heq, ← hstorage]

/-- How many rounds of the loop are left in front of `ww`. -/
def rounds (list : ResourceList) (last ww : Growing.Iterator) : Nat :=
  if ww.index < last.index then last.index - ww.index
  else list.m_resources.elements.length - ww.index + last.index

theorem rounds_next {last ww : Growing.Iterator} (hlast : list.m_resources.Denotes last)
    (hww : list.m_resources.Denotes ww) (hne : list.next ww ≠ last) :
    rounds list last (list.next ww) + 1 = rounds list last ww := by
  obtain ⟨hlast, hindex⟩ := hlast
  obtain ⟨hstorage, hlt⟩ := hww
  revert hne
  unfold ResourceList.next rounds
  dsimp only
  split
  · rename_i hbehind
    intro hne
    have hend : ww.index + 1 = list.m_resources.elements.length :=
      congrArg Growing.Iterator.index hbehind
    have hzero : last.index ≠ 0 := fun hzero => hne (by
      rw [Growing.first, ← hlast, ← hzero])
    have hfirst : list.m_resources.first.index = 0 := rfl
    have hpos : list.m_resources.first.index < last.index := by omega
    have hbound : ¬ ww.index < last.index := by omega
    rw [if_pos hpos, if_neg hbound]
    omega
  · rename_i hbehind
    intro hne
    have hend : ww.index + 1 ≠ list.m_resources.elements.length := fun hend => hbehind (by
      rw [Growing.behind, ← hend, ← hstorage])
    have hlast : ww.index + 1 ≠ last.index := fun heq => hne (by
      rw [heq, hstorage, ← hlast])
    dsimp only
    split <;> split <;> omega

theorem search_isSome {last : Growing.Iterator} (hlast : list.m_resources.Denotes last)
    {fuel : Nat} {ww : Growing.Iterator} (hww : list.m_resources.Denotes ww)
    (hfuel : rounds list last ww ≤ fuel) :
    ∃ found, search isAvailable list last fuel ww = some found ∧
      ∀ w i, found = some (w, i) → list.m_resources.Denotes i := by
  induction fuel generalizing ww with
  | zero =>
    have hlt := hww.2
    have hindex := hlast.2
    unfold rounds at hfuel
    split at hfuel <;> omega
  | succ fuel ih =>
    obtain ⟨w, hw⟩ := Option.isSome_iff_exists.mp (Growing.read?_isSome_iff.mpr hww)
    rw [search, hw, Option.bind_eq_bind, Option.bind_some]
    split
    · refine ⟨some (w, ww), rfl, fun w' i hfound => ?_⟩
      cases hfound
      exact hww
    · split
      · exact ⟨none, rfl, fun w i hfound => by cases hfound⟩
      · rename_i hne
        have hrounds := rounds_next hlast hww hne
        exact ih (next_denotes hww) (by omega)

/-- An iterator that is not stale: it denotes an element, or the vector is empty. -/
def Settled (list : ResourceList) (i : Growing.Iterator) : Prop :=
  list.m_resources.Denotes i ∨ list.m_resources.elements = [] ∧ i = list.m_resources.first

theorem settled_first (list : ResourceList) : Settled list list.m_resources.first := by
  cases helements : list.m_resources.elements with
  | nil => exact Or.inr ⟨helements, rfl⟩
  | cons w rest => exact Or.inl ⟨rfl, by simp [Growing.first, helements]⟩

theorem Settled.storage {i : Growing.Iterator} (h : Settled list i) :
    i.storage = list.m_resources.storage := by
  rcases h with hdenotes | ⟨-, rfl⟩
  · exact hdenotes.1
  · rfl

theorem Settled.eq_behind {i : Growing.Iterator} (h : Settled list i)
    (hlost : ¬ list.m_resources.Denotes i) : i = list.m_resources.behind := by
  rcases h with hdenotes | ⟨hempty, rfl⟩
  · exact absurd hdenotes hlost
  · rw [Growing.behind, hempty]
    rfl

theorem apply_settled (isAvailable : Resource → Bool)
    (h : Settled strategy.m_resources strategy.position) :
    ∃ result i, strategy.apply isAvailable = some (result, { strategy with m_position := some i }) ∧
      Settled strategy.m_resources i := by
  by_cases hbehind : strategy.position = strategy.m_resources.m_resources.behind
  · rw [apply, if_pos hbehind]
    exact ⟨_, _, rfl, h⟩
  · have hdenotes : strategy.m_resources.m_resources.Denotes strategy.position := by
      by_contra hlost
      exact hbehind (h.eq_behind hlost)
    have hrounds : rounds strategy.m_resources strategy.position strategy.position ≤
        strategy.m_resources.m_resources.elements.length := by
      have hindex := hdenotes.2
      rw [rounds, if_neg (Nat.lt_irrefl _)]
      omega
    obtain ⟨found, hfound, hresult⟩ :=
      @search_isSome isAvailable _ _ hdenotes _ _ hdenotes hrounds
    rw [apply, if_neg hbehind, hfound]
    cases found with
    | none => exact ⟨_, _, rfl, h⟩
    | some result => exact ⟨_, _, rfl, Or.inl (next_denotes (hresult result.1 result.2 rfl))⟩

theorem apply_stale (isAvailable : Resource → Bool)
    (h : strategy.m_resources.m_resources.Stale strategy.position) :
    strategy.apply isAvailable = none := by
  have hbehind : strategy.position ≠ strategy.m_resources.m_resources.behind :=
    fun heq => Nat.ne_of_lt h (by rw [heq]; rfl)
  rw [apply, if_neg hbehind, search_stale h]
  rfl

/-- The storage of a vector is empty as long as the vector is, and the position is stale or
settled. -/
structure Kept (strategy : StrategyRoundRobin) : Prop where
  room : strategy.m_resources.m_resources.elements = [] → strategy.m_resources.m_resources.Full
  position : strategy.m_resources.m_resources.Stale strategy.position ∨
    Settled strategy.m_resources strategy.position

theorem Kept.denotes_iff (h : strategy.Kept) (isAvailable : Resource → Bool) :
    strategy.PositionDenotes (.apply isAvailable) ↔
      ¬ strategy.m_resources.m_resources.Stale strategy.position := by
  constructor
  · intro hdenotes hstale
    refine hstale.not_denotes (hdenotes fun hbehind => ?_)
    exact Nat.ne_of_lt hstale (by rw [hbehind]; rfl)
  · intro hfresh hbehind
    by_contra hlost
    exact hbehind ((h.position.resolve_left hfresh).eq_behind hlost)

theorem add_cases (grow : Nat → Nat) (isAvailable : Resource → Bool) (list : ResourceList)
    (resource : Option Resource) :
    (¬ list.Moves resource ∧ (list.add grow isAvailable resource).2 = list) ∨
      ∃ w, (list.Moves resource ↔ list.m_resources.Full) ∧
        (list.add grow isAvailable resource).2 =
          { list with m_resources := list.m_resources.append grow w } := by
  cases resource with
  | none =>
    refine Or.inl ⟨?_, rfl⟩
    rintro ⟨w, hw, -⟩
    cases hw
  | some w =>
    rw [ResourceList.add]
    split
    · rename_i hknown
      refine Or.inl ⟨?_, rfl⟩
      rintro ⟨w', hw', hnew, -⟩
      cases hw'
      exact Bool.false_ne_true (hnew.symm.trans hknown)
    · rename_i hnew
      refine Or.inr ⟨w, ⟨fun ⟨_, _, hmoves⟩ => hmoves.2, fun hfull => ?_⟩, rfl⟩
      exact ⟨w, rfl, Bool.eq_false_iff.mpr hnew, hfull⟩

theorem Settled.append {i : Growing.Iterator} (h : Settled list i)
    (hroom : list.m_resources.elements = [] → list.m_resources.Full) (grow : Nat → Nat)
    (w : Resource) (hspare : ¬ list.m_resources.Full) :
    Settled { list with m_resources := list.m_resources.append grow w } i := by
  rcases h with hdenotes | ⟨hempty, -⟩
  · exact Or.inl (hdenotes.append hspare grow w)
  · exact absurd (hroom hempty) hspare

/-- What an addition makes of a position: a resource that moves the vector loses the position that
was stored, and no other resource does. -/
theorem Kept.add (h : strategy.Kept) (grow : Nat → Nat) (isAvailable : Resource → Bool)
    (resource : Option Resource) {after : StrategyRoundRobin}
    (hafter : after = { strategy with
      m_resources := (strategy.m_resources.add grow isAvailable resource).2 }) :
    after.Kept ∧ (after.m_resources.m_resources.Stale after.position ↔
      strategy.m_resources.m_resources.Stale strategy.position ∨
        strategy.m_position.isSome = true ∧ strategy.m_resources.Moves resource) := by
  rcases add_cases grow isAvailable strategy.m_resources resource with
    ⟨hstays, hsame⟩ | ⟨w, hmoves, happend⟩
  · rw [hsame] at hafter
    subst hafter
    exact ⟨h, by simp [hstays]⟩
  · rw [happend] at hafter
    have hroom : after.m_resources.m_resources.elements = [] →
        after.m_resources.m_resources.Full := by
      intro hempty
      simp [hafter] at hempty
    cases hstored : strategy.m_position with
    | none =>
      have hnone : after.m_position = none := by rw [hafter, hstored]
      rw [position_of_none hnone, position_of_none hstored]
      refine ⟨⟨hroom, Or.inr ?_⟩, iff_of_false (Nat.lt_irrefl _) ?_⟩
      · rw [position_of_none hnone]
        exact settled_first _
      · rintro (hstale | ⟨hsome, -⟩)
        · exact Nat.lt_irrefl _ hstale
        · cases hsome
    | some i =>
      have hsome : after.m_position = some i := by rw [hafter, hstored]
      have hkeep := h.position
      rw [position_of_some hstored] at hkeep ⊢
      rw [position_of_some hsome, hmoves]
      have hlist : after.m_resources =
          { strategy.m_resources with
            m_resources := strategy.m_resources.m_resources.append grow w } := by rw [hafter]
      rcases hkeep with hstale | hsettled
      · have hlost : after.m_resources.m_resources.Stale i := by
          rw [hlist]
          exact hstale.append grow w
        refine ⟨⟨hroom, Or.inl ?_⟩, iff_of_true hlost (Or.inl hstale)⟩
        rwa [position_of_some hsome]
      · by_cases hfull : strategy.m_resources.m_resources.Full
        · have hlost : after.m_resources.m_resources.Stale i := by
            rw [hlist]
            exact Growing.stale_append hsettled.storage hfull grow w
          refine ⟨⟨hroom, Or.inl ?_⟩, iff_of_true hlost (Or.inr ⟨rfl, hfull⟩)⟩
          rwa [position_of_some hsome]
        · have hkept : Settled after.m_resources i := by
            rw [hlist]
            exact hsettled.append h.room grow w hfull
          refine ⟨⟨hroom, Or.inr ?_⟩, iff_of_false ?_ ?_⟩
          · rwa [position_of_some hsome]
          · exact fun hstale => Nat.ne_of_lt hstale hkept.storage
          · rintro (hstale | ⟨-, hmoved⟩)
            · exact Nat.ne_of_lt hstale hsettled.storage
            · exact hfull hmoved

theorem Kept.apply (h : strategy.Kept) {grow : Nat → Nat}
    {isAvailable : Resource → Bool} {after : StrategyRoundRobin}
    (hafter : after ∈ step grow strategy (.apply isAvailable)) :
    after.Kept ∧ after.m_position.isSome = true ∧
      ¬ strategy.m_resources.m_resources.Stale strategy.position ∧
      ¬ after.m_resources.m_resources.Stale after.position := by
  rw [step] at hafter
  rcases h.position with hstale | hsettled
  · rw [apply_stale isAvailable hstale] at hafter
    cases hafter
  · obtain ⟨result, i, happly, hnext⟩ := apply_settled isAvailable hsettled
    rw [happly] at hafter
    cases hafter
    exact ⟨⟨h.room, Or.inr hnext⟩, rfl, fun hstale => Nat.ne_of_lt hstale hsettled.storage,
      fun hstale => Nat.ne_of_lt hstale hnext.storage⟩

theorem kept_instantiate (name : Bytes) : (instantiate name).Kept :=
  ⟨fun _ => rfl, Or.inr (settled_first _)⟩

theorem Kept.step (h : strategy.Kept) {grow : Nat → Nat} {call : Call}
    {after : StrategyRoundRobin} (hafter : after ∈ step grow strategy call) : after.Kept := by
  cases call with
  | add isAvailable resource =>
    cases hafter
    exact (h.add grow isAvailable resource rfl).1
  | apply isAvailable => exact (h.apply hafter).1

theorem kept_run {grow : Nat → Nat} {name : Bytes} {calls : List Call}
    (hrun : strategy ∈ Runs.run? (step grow) (instantiate name) calls) : strategy.Kept := by
  have hstep : ∀ (strategy : StrategyRoundRobin) call after, strategy.Kept →
      after ∈ step grow strategy call → after.Kept := fun _ _ _ h hafter => h.step hafter
  exact Runs.run?_invariant hstep (kept_instantiate name) hrun

/-- A position is stored from the first application on. -/
theorem stored_iff {grow : Nat → Nat} {name : Bytes} {calls : List Call}
    (hrun : strategy ∈ Runs.run? (step grow) (instantiate name) calls) :
    strategy.m_position.isSome = true ↔ ∃ isAvailable, .apply isAvailable ∈ calls := by
  induction calls using List.reverseRecOn generalizing strategy with
  | nil =>
    cases hrun
    simp [instantiate]
  | append_singleton calls call ih =>
    rw [Runs.run?_concat] at hrun
    obtain ⟨earlier, hearlier, hlast⟩ := Option.bind_eq_some_iff.mp hrun
    cases call with
    | add isAvailable resource =>
      cases hlast
      simpa using ih hearlier
    | apply isAvailable =>
      have hstored := ((kept_run hearlier).apply hlast).2.1
      exact iff_of_true hstored ⟨isAvailable, by simp⟩

/-- A stale position was stored when a resource moved the vector. -/
theorem stale_origin {grow : Nat → Nat} {name : Bytes} {calls : List Call}
    (hrun : strategy ∈ Runs.run? (step grow) (instantiate name) calls)
    (hstale : strategy.m_resources.m_resources.Stale strategy.position) :
    ∃ before isAvailable resource between, calls = before ++ .add isAvailable resource :: between ∧
      (∃ isAvailable, .apply isAvailable ∈ before) ∧
        ∃ moved ∈ Runs.run? (step grow) (instantiate name) before,
          moved.m_resources.Moves resource := by
  induction calls using List.reverseRecOn generalizing strategy with
  | nil =>
    cases hrun
    exact absurd hstale (Nat.lt_irrefl _)
  | append_singleton calls call ih =>
    rw [Runs.run?_concat] at hrun
    obtain ⟨earlier, hearlier, hlast⟩ := Option.bind_eq_some_iff.mp hrun
    have hkept := kept_run hearlier
    cases call with
    | apply isAvailable => exact absurd hstale (hkept.apply hlast).2.2.2
    | add isAvailable resource =>
      cases hlast
      rcases (hkept.add grow isAvailable resource rfl).2.mp hstale with hbefore | ⟨hstored, hmoves⟩
      · obtain ⟨before, isAvailable', resource', between, hcalls, hrest⟩ := ih hearlier hbefore
        refine ⟨before, isAvailable', resource', between ++ [.add isAvailable resource], ?_, hrest⟩
        rw [hcalls, List.append_assoc, List.cons_append]
      · exact ⟨calls, isAvailable, resource, [], rfl, (stored_iff hearlier).mp hstored, earlier,
          hearlier, hmoves⟩

theorem not_apply_of_stale {grow : Nat → Nat} {calls : List Call} (h : strategy.Kept)
    (hstale : strategy.m_resources.m_resources.Stale strategy.position)
    (hmeets : Runs.Meets? (step grow) PositionDenotes strategy calls)
    (isAvailable : Resource → Bool) : .apply isAvailable ∉ calls := by
  induction calls generalizing strategy with
  | nil => exact List.not_mem_nil
  | cons call calls ih =>
    obtain ⟨hcall, hrest⟩ := hmeets
    cases call with
    | apply isAvailable' => exact absurd hstale ((h.denotes_iff isAvailable').mp hcall)
    | add isAvailable' resource =>
      obtain ⟨hkept, hlost⟩ := h.add grow isAvailable' resource rfl
      have hnone := ih hkept (hlost.mpr (Or.inl hstale)) (hrest _ rfl)
      rintro (_ | hmem)
      exact hnone ‹_›

/-- In a run of additions and applications every position that is dereferenced denotes an element
just when no resource that moves the vector stands between two applications. -/
theorem positionDenotes_iff (grow : Nat → Nat) (name : Bytes) (calls : List Call) :
    Runs.Meets? (step grow) PositionDenotes (instantiate name) calls ↔
      ∀ before isAvailable resource between isAvailable' after,
        calls = before ++ .add isAvailable resource :: (between ++ .apply isAvailable' :: after) →
          (∃ isAvailable, .apply isAvailable ∈ before) →
            ∀ strategy ∈ Runs.run? (step grow) (instantiate name) before,
              ¬ strategy.m_resources.Moves resource := by
  constructor
  · intro hmeets before isAvailable resource between isAvailable' after hcalls happlied strategy
      hrun hmoves
    rw [hcalls] at hmeets
    obtain ⟨-, hrest⟩ := hmeets.behind hrun
    obtain ⟨hkept, hlost⟩ := (kept_run hrun).add grow isAvailable resource rfl
    have hstale := hlost.mpr (Or.inr ⟨(stored_iff hrun).mpr happlied, hmoves⟩)
    exact not_apply_of_stale hkept hstale (hrest _ rfl) isAvailable' (by simp)
  · intro hstays
    rw [Runs.meets?_iff]
    intro pre call post strategy hcalls hrun
    cases call with
    | add isAvailable resource => trivial
    | apply isAvailable =>
      refine ((kept_run hrun).denotes_iff isAvailable).mpr fun hstale => ?_
      obtain ⟨before, isAvailable', resource, between, hpre, happlied, moved, hmoved, hmoves⟩ :=
        stale_origin hrun hstale
      refine hstays before isAvailable' resource between isAvailable post ?_ happlied moved hmoved
        hmoves
      rw [hcalls, hpre, List.append_assoc, List.cons_append]

/-- The first application finds an empty list, and the position it stores is stale behind the first
resource; so is the position of one resource when a second one moves the vector. -/
theorem not_positionDenotes :
    ¬ Runs.Meets? (step (2 * ·)) PositionDenotes (instantiate (text "list"))
        [.apply fun _ => true, .add (fun _ => true) (some ⟨text "a"⟩), .apply fun _ => true] ∧
      ¬ Runs.Meets? (step (2 * ·)) PositionDenotes (instantiate (text "list"))
        [.add (fun _ => true) (some ⟨text "a"⟩), .apply fun _ => true,
          .add (fun _ => true) (some ⟨text "b"⟩), .apply fun _ => true] := by
  decide +kernel

end StrategyRoundRobin

end Coffee.Balance
