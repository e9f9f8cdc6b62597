import Coffee.Library.Indexed
import Coffee.Time.TimeService
import Mathlib.Logic.Equiv.Basic

/-! # The nodes of the wheel

What each operation of the timing wheel does to its nodes: which lists hold them, and to which nodes
the map leads. The list pointers of the map play no part here.
-/

namespace Coffee.Time

open Coffee.Library

abbrev Index := Int → Option (Quantum × Node)

/-- The lists hold each event once, and the map leads to the node of each event that is held. -/
structure Linked (lists : Quantum → List Node) (events : Int → Option Location) (nextNode : Nat)
    (index : Index) : Prop where
  indexed : Indexed (fun node : Node => node.timeEvent.id) lists index
  events_eq : ∀ id, (events id).map (·.node) = (index id).map fun place => place.2.id
  fresh : ∀ id place, index id = some place → place.2.id < nextNode
  apart : ∀ id id' place place', index id = some place → index id' = some place' →
    place.2.id = place'.2.id → id = id'

namespace Linked

variable {lists : Quantum → List Node} {events : Int → Option Location} {nextNode : Nat}
  {index : Index}

theorem index_eq_none (h : Linked lists events nextNode index) {id : Int}
    (hevents : events id = none) : index id = none := by
  have heq := h.events_eq id
  rw [hevents, Option.map_none] at heq
  exact Option.map_eq_none_iff.mp heq.symm

theorem insert (h : Linked lists events nextNode index) (target : Quantum) (timeEvent : TimeEvent)
    (hnone : events timeEvent.id = none) :
    Linked (Function.update lists target (⟨nextNode, timeEvent⟩ :: lists target))
      (Function.update events timeEvent.id (some ⟨target, nextNode⟩)) (nextNode + 1)
      (Function.update index timeEvent.id (some (target, ⟨nextNode, timeEvent⟩))) where
  indexed := h.indexed.insert target ⟨nextNode, timeEvent⟩ (h.index_eq_none hnone)
  events_eq id := by
    by_cases hid : id = timeEvent.id
    · simp [hid]
    · rw [Function.update_of_ne hid, Function.update_of_ne hid]
      exact h.events_eq id
  fresh id place hplace := by
    rcases update_some hplace with ⟨-, rfl⟩ | ⟨-, hold⟩
    · exact Nat.lt_succ_self _
    · exact Nat.lt_succ_of_lt (h.fresh id place hold)
  apart id id' place place' hplace hplace' heq := by
    rcases update_some hplace with ⟨hid, rfl⟩ | ⟨-, hold⟩ <;>
      rcases update_some hplace' with ⟨hid', rfl⟩ | ⟨-, hold'⟩
    · exact hid.trans hid'.symm
    · exact absurd heq.symm (h.fresh id' place' hold').ne
    · exact absurd heq (h.fresh id place hold).ne
    · exact h.apart id id' place place' hold hold' heq

theorem remove (h : Linked lists events nextNode index) (id : Int) :
    Linked (fun target => (lists target).filter fun node => node.timeEvent.id ≠ id)
      (Function.update events id none) nextNode (Function.update index id none) where
  indexed := h.indexed.remove id
  events_eq other := by
    by_cases hother : other = id
    · simp [hother]
    · rw [Function.update_of_ne hother, Function.update_of_ne hother]
      exact h.events_eq other
  fresh other place hplace := h.fresh other place (update_none hplace).2
  apart other other' place place' hplace hplace' heq :=
    h.apart other other' place place' (update_none hplace).2 (update_none hplace').2 heq

/-- Erasing through the iterator of an event takes out the node of that event and no other. -/
theorem filter_eq (h : Linked lists events nextNode index) {id : Int} {location : Location}
    (hevents : events id = some location) (target : Quantum) :
    ((lists target).filter fun node => node.id ≠ location.node) =
      (lists target).filter fun node => node.timeEvent.id ≠ id := by
  have heq := h.events_eq id
  rw [hevents, Option.map_some] at heq
  obtain ⟨⟨own, node⟩, hindex, hnode⟩ := Option.map_eq_some_iff.mp heq.symm
  refine List.filter_congr fun other hother => ?_
  have hheld := h.indexed.held target other hother
  rw [decide_eq_decide, not_iff_not]
  constructor
  · intro hid
    exact h.apart _ _ _ _ hheld hindex (hid.trans hnode.symm)
  · rintro rfl
    rw [hindex] at hheld
    obtain ⟨-, rfl⟩ := Prod.mk.inj (Option.some.inj hheld)
    exact hnode

theorem rename (h : Linked lists events nextNode index) (name : Quantum ≃ Quantum) :
    Linked (fun target => lists (name.symm target)) events nextNode
      (fun id => (index id).map fun place => (name place.1, place.2)) where
  indexed := h.indexed.rename name
  events_eq id := by rw [h.events_eq, Option.map_map]; rfl
  fresh id place hplace := by
    obtain ⟨place', hindex, rfl⟩ := Option.map_eq_some_iff.mp hplace
    exact h.fresh id place' hindex
  apart id id' place place' hplace hplace' heq := by
    obtain ⟨own, hindex, rfl⟩ := Option.map_eq_some_iff.mp hplace
    obtain ⟨own', hindex', rfl⟩ := Option.map_eq_some_iff.mp hplace'
    exact h.apart id id' own own' hindex hindex' heq

end Linked

/-- The ticks to process before the one that reaches a list. -/
def Quantum.distance (maxQuantum currentQuantum : Nat) : Quantum → Nat
  | .timeTable indexQuantum => (indexQuantum + maxQuantum - currentQuantum) % maxQuantum
  | .temporaryQuantum => maxQuantum

/-- The events that are held, with the distance of their lists. -/
def remaining (maxQuantum currentQuantum : Nat) (index : Index) (id : Int) :
    Option (TimeEvent × Nat) :=
  (index id).map fun place => (place.2.timeEvent, place.1.distance maxQuantum currentQuantum)

/-- The list pointers of the map are those of the lists that hold the events. -/
def Placed (events : Int → Option Location) (index : Index) : Prop :=
  ∀ id location place, events id = some location → index id = some place →
    location.target = place.1

/-- The wheel while `timedout` is what the loop of `consume` has still to walk of its slot. -/
structure Held (settings : Settings) (timeService : TimeService) (timedout : List Node)
    (index : Index) : Prop where
  linked : Linked
    (Function.update timeService.quantum (.timeTable timeService.currentQuantum) timedout)
    timeService.events timeService.nextNode index
  current_lt : timeService.currentQuantum < settings.maxQuantum
  slot_lt : ∀ id indexQuantum node, index id = some (.timeTable indexQuantum, node) →
    indexQuantum < settings.maxQuantum
  fits : ∀ id place, index id = some place → 1 ≤ settings.quanta place.2.timeEvent ∧
    settings.quanta place.2.timeEvent ≤ settings.maxQuantum

theorem Placed.update {events : Int → Option Location} {index : Index} (h : Placed events index)
    (id : Int) (location : Option Location) (place : Option (Quantum × Node))
    (hsame : ∀ l ∈ location, ∀ p ∈ place, l.target = p.1) :
    Placed (Function.update events id location) (Function.update index id place) := by
  intro other location' place' hlocation hplace
  by_cases hother : other = id
  · rw [hother, Function.update_self] at hlocation hplace
    exact hsame location' hlocation place' hplace
  · rw [Function.update_of_ne hother] at hlocation hplace
    exact h other location' place' hlocation hplace

theorem remaining_update (maxQuantum currentQuantum : Nat) (index : Index) (id : Int)
    (place : Option (Quantum × Node)) :
    remaining maxQuantum currentQuantum (Function.update index id place) =
      Function.update (remaining maxQuantum currentQuantum index) id
        (place.map fun place =>
          (place.2.timeEvent, place.1.distance maxQuantum currentQuantum)) := by
  funext other
  by_cases hother : other = id
  · simp [remaining, hother]
  · simp [remaining, Function.update_of_ne hother]

theorem wrap_eq {maxQuantum currentQuantum k : Nat} (hcurrent : currentQuantum < maxQuantum)
    (hle : k ≤ maxQuantum) :
    (currentQuantum + k) % maxQuantum =
      if currentQuantum + k < maxQuantum then currentQuantum + k
      else currentQuantum + k - maxQuantum := by
  split
  · next hlt => exact Nat.mod_eq_of_lt hlt
  · rw [Nat.mod_eq_sub_mod (by omega), Nat.mod_eq_of_lt (by omega)]

theorem distance_eq {maxQuantum currentQuantum i : Nat} (hcurrent : currentQuantum < maxQuantum)
    (hi : i < maxQuantum) :
    (Quantum.timeTable i).distance maxQuantum currentQuantum =
      if currentQuantum ≤ i then i - currentQuantum else i + maxQuantum - currentQuantum := by
  rw [Quantum.distance]
  split
  · rw [Nat.mod_eq_sub_mod (by omega), Nat.mod_eq_of_lt (by omega)]
    omega
  · exact Nat.mod_eq_of_lt (by omega)

section Target

variable {settings : Settings} {timeService : TimeService} {timeEvent : TimeEvent}

theorem TimeService.target_ne (settings : Settings) (timeService : TimeService)
    (timeEvent : TimeEvent) :
    timeService.target settings timeEvent ≠ .timeTable timeService.currentQuantum := by
  rw [target]
  split
  · simp
  · next hne => simpa using hne

theorem TimeService.target_lt {indexQuantum : Nat}
    (h : timeService.target settings timeEvent = .timeTable indexQuantum) :
    indexQuantum < settings.maxQuantum := by
  rw [target] at h
  split at h
  · cases h
  · obtain rfl := Quantum.timeTable.inj h
    exact Nat.mod_lt _ (Nat.lt_trans Nat.zero_lt_one settings.one_lt_maxQuantum)

theorem TimeService.target_distance (hcurrent : timeService.currentQuantum < settings.maxQuantum)
    (hfits : 1 ≤ settings.quanta timeEvent ∧ settings.quanta timeEvent ≤ settings.maxQuantum) :
    (timeService.target settings timeEvent).distance settings.maxQuantum
      timeService.currentQuantum = settings.quanta timeEvent := by
  obtain ⟨hge, hle⟩ := hfits
  rw [target, wrap_eq hcurrent hle]
  by_cases hturn : settings.quanta timeEvent = settings.maxQuantum
  · have hsame : ¬ timeService.currentQuantum + settings.quanta timeEvent < settings.maxQuantum := by
      omega
    rw [if_neg hsame, if_pos (by omega), Quantum.distance, hturn]
  · split
    · rw [if_neg (by omega), Quantum.distance, Nat.mod_eq_sub_mod (by omega),
        Nat.mod_eq_of_lt (by omega)]
      omega
    · rw [if_neg (by omega), Quantum.distance, Nat.mod_eq_of_lt (by omega)]
      omega

end Target

def restart (settings : Settings) (timeEvent : TimeEvent) : Option (TimeEvent × Nat) :=
  if timeEvent.isPeriodical then some (timeEvent, settings.quanta timeEvent) else none

namespace Held

variable {settings : Settings} {timeService : TimeService} {timedout : List Node} {index : Index}

theorem store (h : Held settings timeService timedout index) {timeEvent : TimeEvent}
    (hnone : timeService.events timeEvent.id = none)
    (hfits : 1 ≤ settings.quanta timeEvent ∧ settings.quanta timeEvent ≤ settings.maxQuantum) :
    Held settings (timeService.store settings timeEvent) timedout
      (Function.update index timeEvent.id
        (some (timeService.target settings timeEvent, ⟨timeService.nextNode, timeEvent⟩))) where
  linked := by
    have hinsert := h.linked.insert (timeService.target settings timeEvent) timeEvent hnone
    have hne := TimeService.target_ne settings timeService timeEvent
    have hcomm := Function.update_comm hne.symm timedout
      (⟨timeService.nextNode, timeEvent⟩ ::
        timeService.quantum (timeService.target settings timeEvent)) timeService.quantum
    rw [Function.update_of_ne hne, hcomm] at hinsert
    exact hinsert
  current_lt := h.current_lt
  slot_lt id indexQuantum node hindex := by
    rcases update_some hindex with ⟨-, hplace⟩ | ⟨-, hold⟩
    · exact TimeService.target_lt (Prod.mk.inj hplace).1
    · exact h.slot_lt id indexQuantum node hold
  fits id place hindex := by
    rcases update_some hindex with ⟨-, rfl⟩ | ⟨-, hold⟩
    · exact hfits
    · exact h.fits id place hold

theorem store_rest (h : Held settings timeService
      (timeService.quantum (.timeTable timeService.currentQuantum)) index) {timeEvent : TimeEvent}
    (hnone : timeService.events timeEvent.id = none)
    (hfits : 1 ≤ settings.quanta timeEvent ∧ settings.quanta timeEvent ≤ settings.maxQuantum) :
    Held settings (timeService.store settings timeEvent)
      ((timeService.store settings timeEvent).quantum
        (.timeTable (timeService.store settings timeEvent).currentQuantum))
      (Function.update index timeEvent.id
        (some (timeService.target settings timeEvent, ⟨timeService.nextNode, timeEvent⟩))) := by
  have hslot : (timeService.store settings timeEvent).quantum
      (.timeTable (timeService.store settings timeEvent).currentQuantum) =
      timeService.quantum (.timeTable timeService.currentQuantum) :=
    Function.update_of_ne (TimeService.target_ne _ _ _).symm _ _
  rw [hslot]
  exact h.store hnone hfits

theorem store_remaining (h : Held settings timeService timedout index) {timeEvent : TimeEvent}
    (hfits : 1 ≤ settings.quanta timeEvent ∧ settings.quanta timeEvent ≤ settings.maxQuantum) :
    remaining settings.maxQuantum timeService.currentQuantum
        (Function.update index timeEvent.id
          (some (timeService.target settings timeEvent, ⟨timeService.nextNode, timeEvent⟩))) =
      Function.update (remaining settings.maxQuantum timeService.currentQuantum index) timeEvent.id
        (some (timeEvent, settings.quanta timeEvent)) := by
  rw [remaining_update, Option.map_some, TimeService.target_distance h.current_lt hfits]

theorem walk {node : Node} (h : Held settings timeService (node :: timedout) index) :
    Held settings { timeService with
        events := Function.update timeService.events node.timeEvent.id none } timedout
      (Function.update index node.timeEvent.id none) where
  linked := by
    have hremove := h.linked.remove node.timeEvent.id
    have htail := h.linked.indexed.filter_tail (Function.update_self _ _ _)
    rw [Function.update_idem] at htail
    rw [htail] at hremove
    exact hremove
  current_lt := h.current_lt
  slot_lt id indexQuantum other hindex := h.slot_lt id indexQuantum other (update_none hindex).2
  fits id place hindex := h.fits id place (update_none hindex).2

theorem expire {node : Node} (h : Held settings timeService (node :: timedout) index) :
    ∃ index', Held settings (timeService.expire settings node) timedout index' ∧
      remaining settings.maxQuantum timeService.currentQuantum index' =
        Function.update (remaining settings.maxQuantum timeService.currentQuantum index)
          node.timeEvent.id (restart settings node.timeEvent) ∧
      (Placed timeService.events index →
        Placed (timeService.expire settings node).events index') := by
  have hwalk := h.walk
  have hheld : index node.timeEvent.id = some (.timeTable timeService.currentQuantum, node) :=
    h.linked.indexed.held _ node (by simp)
  have hfits := h.fits _ _ hheld
  rw [TimeService.expire, restart]
  split
  · refine ⟨_, hwalk.store (Function.update_self _ _ _) hfits, ?_, fun hplaced => ?_⟩
    · rw [hwalk.store_remaining hfits, remaining_update, Option.map_none, Function.update_idem]
    · exact (hplaced.update _ none none (by simp)).update _ _ _ (by simp)
  · refine ⟨_, hwalk, ?_, fun hplaced => hplaced.update _ none none (by simp)⟩
    rw [remaining_update, Option.map_none]

theorem expire_currentQuantum (settings : Settings) (timeService : TimeService) (node : Node) :
    (timeService.expire settings node).currentQuantum = timeService.currentQuantum ∧
      (timeService.expire settings node).stopped = timeService.stopped := by
  rw [TimeService.expire]
  split <;> exact ⟨rfl, rfl⟩

/-- The whole walk of a slot restarts the periodical events of the slot and ends the others. -/
theorem foldl_expire (h : Held settings timeService timedout index) :
    ∃ index', Held settings (timedout.foldl (TimeService.expire settings) timeService) [] index' ∧
      (timedout.foldl (TimeService.expire settings) timeService).currentQuantum =
        timeService.currentQuantum ∧
      (timedout.foldl (TimeService.expire settings) timeService).stopped = timeService.stopped ∧
      remaining settings.maxQuantum timeService.currentQuantum index' =
        timedout.foldl (fun remaining node =>
          Function.update remaining node.timeEvent.id (restart settings node.timeEvent))
          (remaining settings.maxQuantum timeService.currentQuantum index) ∧
      (Placed timeService.events index →
        Placed (timedout.foldl (TimeService.expire settings) timeService).events index') := by
  induction timedout generalizing timeService index with
  | nil => exact ⟨index, h, rfl, rfl, rfl, id⟩
  | cons node timedout ih =>
    obtain ⟨index₁, h₁, hremaining₁, hplaced₁⟩ := h.expire
    obtain ⟨hcurrent, hstopped⟩ := expire_currentQuantum settings timeService node
    obtain ⟨index₂, h₂, hcurrent₂, hstopped₂, hremaining₂, hplaced₂⟩ := ih h₁
    refine ⟨index₂, h₂, hcurrent₂.trans hcurrent, hstopped₂.trans hstopped, ?_,
      fun hplaced => hplaced₂ (hplaced₁ hplaced)⟩
    rw [hcurrent, hremaining₁] at hremaining₂
    exact hremaining₂

theorem current_empty (h : Held settings timeService [] index) {id : Int}
    {place : Quantum × Node} (hindex : index id = some place) :
    place.1 ≠ .timeTable timeService.currentQuantum := by
  intro hplace
  have hmem := (h.linked.indexed.found id place.1 place.2 hindex).1
  rw [hplace, Function.update_self] at hmem
  exact List.not_mem_nil hmem

theorem advance_quantum (settings : Settings) (timeService : TimeService) :
    (timeService.advance settings).quantum = fun target =>
      Function.update timeService.quantum (.timeTable timeService.currentQuantum) []
        ((Equiv.swap (.timeTable timeService.currentQuantum) .temporaryQuantum).symm target) := by
  funext target
  simp only [TimeService.advance, Equiv.symm_swap]
  by_cases htemporary : target = .temporaryQuantum
  · subst htemporary
    rw [Function.update_self, Equiv.swap_apply_right, Function.update_self]
  · rw [Function.update_of_ne htemporary]
    by_cases hcurrent : target = .timeTable timeService.currentQuantum
    · subst hcurrent
      rw [Function.update_self, Equiv.swap_apply_left, Function.update_of_ne (by simp)]
    · rw [Function.update_of_ne hcurrent, Equiv.swap_apply_of_ne_of_ne hcurrent htemporary,
        Function.update_of_ne hcurrent]

theorem advance_distance (settings : Settings) (timeService : TimeService)
    (hcurrent : timeService.currentQuantum < settings.maxQuantum) {place : Quantum}
    (hplace : place ≠ .timeTable timeService.currentQuantum)
    (hlt : ∀ i, place = .timeTable i → i < settings.maxQuantum) :
    (Equiv.swap (.timeTable timeService.currentQuantum) .temporaryQuantum place).distance
        settings.maxQuantum (timeService.advance settings).currentQuantum =
      place.distance settings.maxQuantum timeService.currentQuantum - 1 := by
  have hone := settings.one_lt_maxQuantum
  have hstep : (timeService.advance settings).currentQuantum =
    if timeService.currentQuantum + 1 = settings.maxQuantum then 0
      else timeService.currentQuantum + 1 := rfl
  have hnext : (timeService.advance settings).currentQuantum < settings.maxQuantum := by
    rw [hstep]
    split <;> omega
  cases place with
  | temporaryQuantum =>
    rw [Equiv.swap_apply_right, distance_eq hnext hcurrent, hstep]
    simp only [Quantum.distance]
    split <;> split <;> omega
  | timeTable i =>
    have hi := hlt i rfl
    have hne : i ≠ timeService.currentQuantum := fun heq => hplace (by rw [heq])
    rw [Equiv.swap_apply_of_ne_of_ne hplace (by simp), distance_eq hnext hi,
      distance_eq hcurrent hi, hstep]
    split <;> split <;> split <;> omega

/-- When the slot is walked, every list comes a tick nearer, and the temporary list takes the place
of the slot. -/
theorem advance (h : Held settings timeService [] index) :
    Held settings (timeService.advance settings)
        ((timeService.advance settings).quantum
          (.timeTable (timeService.advance settings).currentQuantum))
        (fun id => (index id).map fun place =>
          (Equiv.swap (.timeTable timeService.currentQuantum) .temporaryQuantum place.1, place.2)) ∧
      ∀ id, remaining settings.maxQuantum (timeService.advance settings).currentQuantum
          (fun id => (index id).map fun place =>
            (Equiv.swap (.timeTable timeService.currentQuantum) .temporaryQuantum place.1,
              place.2)) id =
        (remaining settings.maxQuantum timeService.currentQuantum index id).map fun counted =>
          (counted.1, counted.2 - 1) := by
  have hcurrent := h.current_lt
  refine ⟨⟨?_, ?_, ?_, ?_⟩, fun id => ?_⟩
  · rw [Function.update_eq_self, advance_quantum]
    exact h.linked.rename _
  · rw [TimeService.advance]
    simp only
    split <;> omega
  · intro id i node hindex
    obtain ⟨place, hplace, hswap⟩ := Option.map_eq_some_iff.mp hindex
    obtain ⟨htarget, rfl⟩ := Prod.mk.inj hswap
    have hne := h.current_empty hplace
    obtain ⟨own, node⟩ := place
    cases own with
    | temporaryQuantum =>
      rw [Equiv.swap_apply_right] at htarget
      obtain rfl := Quantum.timeTable.inj htarget
      exact hcurrent
    | timeTable j =>
      rw [Equiv.swap_apply_of_ne_of_ne hne (by simp)] at htarget
      obtain rfl := Quantum.timeTable.inj htarget
      exact h.slot_lt id j node hplace
  · intro id place hindex
    obtain ⟨own, hplace, rfl⟩ := Option.map_eq_some_iff.mp hindex
    exact h.fits id own hplace
  · cases hindex : index id with
    | none => simp [remaining, hindex]
    | some place =>
      simp only [remaining, hindex, Option.map_some]
      rw [advance_distance settings timeService hcurrent (h.current_empty hindex)
        fun i hi => h.slot_lt id i place.2 (by rw [hindex, ← hi])]

theorem cancel (h : Held settings timeService
      (timeService.quantum (.timeTable timeService.currentQuantum)) index)
    {timeEvent : TimeEvent} {location : Location}
    (hevents : timeService.events timeEvent.id = some location) :
    Held settings (timeService.cancel (some timeEvent)).2
      ((timeService.cancel (some timeEvent)).2.quantum
        (.timeTable (timeService.cancel (some timeEvent)).2.currentQuantum))
      (Function.update index timeEvent.id none) := by
  have hlinked := h.linked
  rw [Function.update_eq_self] at hlinked
  have hcancel : (timeService.cancel (some timeEvent)).2 = { timeService with
      quantum := fun target => (timeService.quantum target).filter fun node =>
        node.timeEvent.id ≠ timeEvent.id
      events := Function.update timeService.events timeEvent.id none } := by
    simp only [TimeService.cancel, hevents, hlinked.filter_eq hevents]
  rw [hcancel]
  refine ⟨?_, h.current_lt,
    fun id indexQuantum node hindex => h.slot_lt id indexQuantum node (update_none hindex).2,
    fun id place hindex => h.fits id place (update_none hindex).2⟩
  rw [Function.update_eq_self]
  exact hlinked.remove timeEvent.id

theorem instantiate (settings : Settings) (stopped : Bool) :
    Held settings { TimeService.instantiate with stopped } [] fun _ => none where
  linked := by
    have hlists : Function.update (fun _ : Quantum => ([] : List Node)) (.timeTable 0) [] =
        fun _ => [] := Function.update_eq_self _ _
    refine ⟨?_, fun _ => rfl, fun _ _ h => (by cases h), fun _ _ _ _ h => (by cases h)⟩
    exact hlists ▸ Indexed.empty _
  current_lt := Nat.lt_trans Nat.zero_lt_one settings.one_lt_maxQuantum
  slot_lt := fun _ _ _ h => by cases h
  fits := fun _ _ h => by cases h

end Held

end Coffee.Time
