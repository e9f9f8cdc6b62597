import Coffee.Balance.RoundRobin
import Coffee.Library.Rotation

/-! # Fairness of the round robin

On a list that nothing is added to any more, whatever becomes available or not between the calls,
the strategy picks behind the resource that it returned last.
-/

namespace Coffee.Balance

open Coffee.Basis Coffee.Library Coffee.Library.Rotation

namespace ResourceList

def filled (grow : Nat → Nat) (name : Bytes) (adds : List ((Resource → Bool) × Option Resource)) :
    ResourceList :=
  Runs.run (fun list add => (list.add grow add.1 add.2).2) ⟨name, Growing.empty⟩ adds

theorem nodup_filled (grow : Nat → Nat) (name : Bytes)
    (adds : List ((Resource → Bool) × Option Resource)) :
    (filled grow name adds).m_resources.elements.Nodup := by
  have hadd : ∀ (list : ResourceList) (add : (Resource → Bool) × Option Resource),
      list.m_resources.elements.Nodup →
        (list.add grow add.1 add.2).2.m_resources.elements.Nodup := by
    rintro list ⟨isAvailable, resource⟩ hnodup
    cases resource with
    | none => exact hnodup
    | some resource =>
      rw [ResourceList.add]
      split
      · exact hnodup
      · rename_i hnew
        rw [Growing.elements_append]
        refine List.nodup_append.mpr ⟨hnodup, List.nodup_singleton resource, ?_⟩
        rintro w hw w' hw' rfl
        rw [List.mem_singleton.mp hw'] at hw
        exact hnew (List.any_eq_true.mpr ⟨resource, hw, by simp⟩)
  exact Runs.invariant hadd List.nodup_nil adds

end ResourceList

namespace StrategyRoundRobin

variable {isAvailable : Resource → Bool} {list : ResourceList} {strategy : StrategyRoundRobin}

/-- The iterator that the loop of `apply` comes to from `last` in so many rounds. -/
def place (list : ResourceList) (last : Growing.Iterator) (k : Nat) : Growing.Iterator :=
  ⟨last.storage, (last.index + k) % list.m_resources.elements.length⟩

theorem place_zero {last : Growing.Iterator} (hlast : list.m_resources.Denotes last) :
    place list last 0 = last := by
  rw [place, Nat.add_zero, Nat.mod_eq_of_lt hlast.2]

theorem place_denotes {last : Growing.Iterator} (hlast : list.m_resources.Denotes last) (k : Nat) :
    list.m_resources.Denotes (place list last k) :=
  ⟨hlast.1, Nat.mod_lt _ (Nat.zero_lt_of_lt hlast.2)⟩

theorem next_index {ww : Growing.Iterator} (hww : list.m_resources.Denotes ww) :
    (list.next ww).index = (ww.index + 1) % list.m_resources.elements.length := by
  obtain ⟨hstorage, hlt⟩ := hww
  unfold ResourceList.next
  dsimp only
  split
  · rename_i hbehind
    have hend : ww.index + 1 = list.m_resources.elements.length :=
      congrArg Growing.Iterator.index hbehind
    rw [hend, Nat.mod_self]
    rfl
  · rename_i hbehind
    have hne : ww.index + 1 ≠ list.m_resources.elements.length := fun hend => hbehind (by
      rw [Growing.behind, ← hend, ← hstorage])
    have hlt : ww.index + 1 < list.m_resources.elements.length := Nat.lt_of_le_of_ne hlt hne
    exact (Nat.mod_eq_of_lt hlt).symm

theorem next_place {last : Growing.Iterator} (hlast : list.m_resources.Denotes last) (k : Nat) :
    list.next (place list last k) = place list last (k + 1) := by
  have hstorage := (next_denotes (place_denotes hlast k)).1
  have hindex := next_index (place_denotes hlast k)
  rw [place] at hindex ⊢
  dsimp only at hindex
  rw [Nat.mod_add_mod] at hindex
  rw [place, Growing.Iterator.mk.injEq]
  exact ⟨hstorage.trans hlast.1.symm, hindex⟩

theorem place_eq_iff {last : Growing.Iterator} (hlast : list.m_resources.Denotes last) {k : Nat}
    (hpos : 0 < k) (hk : k ≤ list.m_resources.elements.length) :
    place list last k = last ↔ k = list.m_resources.elements.length := by
  have hindex := hlast.2
  constructor
  · intro hplace
    have hmod : (last.index + k) % list.m_resources.elements.length = last.index :=
      congrArg Growing.Iterator.index hplace
    by_contra hne
    by_cases hwrap : last.index + k < list.m_resources.elements.length
    · rw [Nat.mod_eq_of_lt hwrap] at hmod
      omega
    · rw [Nat.mod_eq_sub_mod (by omega), Nat.mod_eq_of_lt (by omega)] at hmod
      omega
  · rintro rfl
    rw [place, Nat.add_mod_right, Nat.mod_eq_of_lt hindex]

/-- From each place of the turn the loop finds the first available resource of those that are left,
and the iterator of it. -/
theorem search_place {last : Growing.Iterator} (hlast : list.m_resources.Denotes last)
    {fuel k : Nat} (hk : k < list.m_resources.elements.length)
    (hfuel : list.m_resources.elements.length ≤ fuel + k) :
    ∃ found, search isAvailable list last fuel (place list last k) = some found ∧
      found.map Prod.fst = ((list.m_resources.elements.rotate last.index).drop k).find? isAvailable ∧
      ∀ w ww, found = some (w, ww) → list.m_resources.Denotes ww ∧
        list.m_resources.elements[ww.index]? = some w := by
  induction fuel generalizing k with
  | zero => omega
  | succ fuel ih =>
    have hne : list.m_resources.elements ≠ [] := List.ne_nil_of_length_pos (by omega)
    have hplace := place_denotes hlast k
    obtain ⟨w, hw⟩ := Option.isSome_iff_exists.mp (Growing.read?_isSome_iff.mpr hplace)
    have hread : list.m_resources.elements[(place list last k).index]? = some w := by
      rw [Growing.read?, if_pos hplace.1] at hw
      exact hw
    have hturn : (list.m_resources.elements.rotate last.index).drop k =
        w :: (list.m_resources.elements.rotate last.index).drop (k + 1) := by
      rw [List.drop_eq_getElem?_toList_append, getElem?_rotate hne last.index hk]
      exact congrArg (·.toList ++ _) hread
    rw [search, hw, Option.bind_eq_bind, Option.bind_some, hturn]
    split
    · rename_i havailable
      refine ⟨some (w, place list last k), rfl, ?_, fun w' ww hfound => ?_⟩
      · rw [List.find?_cons_of_pos havailable]
        rfl
      · cases hfound
        exact ⟨hplace, hread⟩
    · rename_i hunavailable
      rw [List.find?_cons_of_neg hunavailable, next_place hlast]
      split
      · rename_i hend
        have hlength := (place_eq_iff hlast (Nat.succ_pos k) hk).mp hend
        refine ⟨none, rfl, ?_, fun w' ww hfound => by cases hfound⟩
        rw [List.drop_of_length_le (by rw [List.length_rotate, ← hlength])]
        rfl
      · rename_i hmore
        have hlt : k + 1 < list.m_resources.elements.length :=
          Nat.lt_of_le_of_ne hk fun heq => hmore ((place_eq_iff hlast (Nat.succ_pos k) hk).mpr heq)
        exact ih hlt (by omega)

theorem search_eq (isAvailable : Resource → Bool) {last : Growing.Iterator}
    (hlast : list.m_resources.Denotes last) :
    ∃ found, search isAvailable list last list.m_resources.elements.length last = some found ∧
      found.map Prod.fst = pick isAvailable list.m_resources.elements last.index ∧
      ∀ w ww, found = some (w, ww) → list.m_resources.Denotes ww ∧
        list.m_resources.elements[ww.index]? = some w := by
  have hsearch := @search_place isAvailable list last hlast list.m_resources.elements.length 0
    (Nat.zero_lt_of_lt hlast.2) (Nat.le_refl _)
  rwa [place_zero hlast] at hsearch

/-- The position stands behind the resource that was returned last. -/
structure Behind (strategy : StrategyRoundRobin) (last : Option Resource) : Prop where
  settled : Settled strategy.m_resources strategy.position
  index : strategy.position.index % strategy.m_resources.m_resources.elements.length =
    behind strategy.m_resources.m_resources.elements last %
      strategy.m_resources.m_resources.elements.length

/-- What a call returns and where it leaves the position. -/
theorem apply_spec (isAvailable : Resource → Bool) {last : Option Resource}
    (hnodup : strategy.m_resources.m_resources.elements.Nodup) (h : strategy.Behind last) :
    ∃ result after, strategy.apply isAvailable = some (result, after) ∧
      after.m_resources = strategy.m_resources ∧
      result.toOption = pick isAvailable strategy.m_resources.m_resources.elements
        (behind strategy.m_resources.m_resources.elements last) ∧
      (result.toOption = none → after.position = strategy.position) ∧
      after.Behind (result.toOption.or last) := by
  rw [← pick_mod, ← h.index, pick_mod]
  by_cases hbehind : strategy.position = strategy.m_resources.m_resources.behind
  · have hempty : strategy.m_resources.m_resources.elements = [] := by
      rcases h.settled with hdenotes | ⟨hempty, -⟩
      · have hlt := hdenotes.2
        rw [hbehind] at hlt
        exact absurd hlt (Nat.lt_irrefl _)
      · exact hempty
    rw [apply, if_pos hbehind]
    refine ⟨_, _, rfl, rfl, ?_, fun _ => rfl, h.settled, h.index⟩
    rw [hempty]
    rfl
  · have hdenotes : strategy.m_resources.m_resources.Denotes strategy.position := by
      by_contra hlost
      exact hbehind (h.settled.eq_behind hlost)
    obtain ⟨found, hfound, hpick, hplace⟩ := search_eq isAvailable hdenotes
    rw [apply, if_neg hbehind, hfound, ← hpick]
    cases found with
    | none => exact ⟨_, _, rfl, rfl, rfl, fun _ => rfl, h.settled, h.index⟩
    | some found =>
      obtain ⟨w, ww⟩ := found
      obtain ⟨hww, hw⟩ := hplace w ww rfl
      refine ⟨_, _, rfl, rfl, rfl, fun hnone => (by cases hnone), Or.inl (next_denotes hww), ?_⟩
      have hidx : strategy.m_resources.m_resources.elements.idxOf w = ww.index := by
        obtain ⟨hlt, rfl⟩ := List.getElem?_eq_some_iff.mp hw
        exact List.Nodup.idxOf_getElem hnodup _ hlt
      change (strategy.m_resources.next ww).index % _ = (_ + 1) % _
      rw [next_index hww, Nat.mod_mod, hidx]

def applies (strategy : StrategyRoundRobin) (calls : List (Resource → Bool)) :
    Option (List (Except ResourceUnavailableException Resource) × StrategyRoundRobin) :=
  Runs.trace? (fun strategy isAvailable => strategy.apply isAvailable) strategy calls

theorem applies_spec {last : Option Resource}
    (hnodup : strategy.m_resources.m_resources.elements.Nodup) (h : strategy.Behind last)
    (calls : List (Resource → Bool)) :
    ∃ results after last', strategy.applies calls = some (results, after) ∧
      after.m_resources = strategy.m_resources ∧
      results.map Except.toOption = picks strategy.m_resources.m_resources.elements last calls ∧
      after.Behind last' := by
  induction calls generalizing strategy last with
  | nil => exact ⟨[], strategy, last, rfl, rfl, rfl, h⟩
  | cons isAvailable calls ih =>
    obtain ⟨result, middle, happly, hlist, hresult, -, hmiddle⟩ := apply_spec isAvailable hnodup h
    obtain ⟨results, after, last', hrest, hkept, hresults, hafter⟩ :=
      ih (by rwa [hlist]) hmiddle
    refine ⟨result :: results, after, last', ?_, hkept.trans hlist, ?_, hafter⟩
    · unfold applies at hrest ⊢
      rw [Runs.trace?_cons happly, hrest]
      rfl
    · rw [List.map_cons, hresults, hlist, hresult, picks]

/-- On a list that is filled once the calls return the first available resource behind the one that
the last successful call returned, a call that throws does so since none is available and keeps the
position, and turns of calls with everything available return each resource once in a turn. -/
theorem applies_fair (grow : Nat → Nat) (name : Bytes)
    (adds : List ((Resource → Bool) × Option Resource)) (calls : List (Resource → Bool)) :
    ∃ results strategy, applies ⟨ResourceList.filled grow name adds, none⟩ calls =
        some (results, strategy) ∧
      results.map Except.toOption =
        picks (ResourceList.filled grow name adds).m_resources.elements none calls ∧
      (∀ isAvailable, ∃ result after, strategy.apply isAvailable = some (result, after) ∧
        (result.toOption = none ↔ ∀ w ∈ (ResourceList.filled grow name adds).m_resources.elements,
          isAvailable w = false) ∧
        (result.toOption = none → after.position = strategy.position)) ∧
      ∀ turns all,
        all.length = turns * (ResourceList.filled grow name adds).m_resources.elements.length →
        (∀ isAvailable ∈ all, ∀ w ∈ (ResourceList.filled grow name adds).m_resources.elements,
          isAvailable w = true) →
        ∃ returned after, strategy.applies all = some (returned, after) ∧
          ∀ w ∈ (ResourceList.filled grow name adds).m_resources.elements,
            (returned.map Except.toOption).count (some w) = turns := by
  have hnodup := ResourceList.nodup_filled grow name adds
  generalize ResourceList.filled grow name adds = list at hnodup
  have hfirst : (⟨list, none⟩ : StrategyRoundRobin).Behind none :=
    ⟨settled_first list, rfl⟩
  obtain ⟨results, strategy, last, hcalls, hlist, hresults, hbehind⟩ :=
    @applies_spec ⟨list, none⟩ none hnodup hfirst calls
  dsimp only at hlist
  have hkept : strategy.m_resources.m_resources.elements.Nodup := by rwa [hlist]
  refine ⟨results, strategy, hcalls, hresults, fun isAvailable => ?_, fun turns all hlength hall => ?_⟩
  · obtain ⟨result, after, happly, -, hresult, hposition, -⟩ := apply_spec isAvailable hkept hbehind
    refine ⟨result, after, happly, ?_, hposition⟩
    rw [hresult, pick_eq_none_iff, hlist]
  · obtain ⟨returned, after, -, hall', -, hreturned, -⟩ := applies_spec hkept hbehind all
    refine ⟨returned, after, hall', fun w hw => ?_⟩
    have hne : list.m_resources.elements ≠ [] := List.ne_nil_of_mem hw
    rw [hreturned, hlist, picks_of_forall hnodup hne last hall, hlength]
    exact count_turns hnodup _ turns hw

end StrategyRoundRobin

end Coffee.Balance
