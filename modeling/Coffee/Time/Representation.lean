import Coffee.Time.Refinement

/-! # The map and the lists of the wheel

The map of active events leads to the lists that hold them as long as no tick moves the temporary
list, and no stop finds an active event.
-/

namespace Coffee.Time

open Coffee.Library

/-- The map has an entry for each event that is held, each event is held once, and the list pointer of
an entry is that of the list which contains its iterator. -/
structure Represents (timeService : TimeService) : Prop where
  mapped : ∀ target, ∀ node ∈ timeService.quantum target,
    timeService.events node.timeEvent.id = some ⟨target, node.id⟩
  held : ∀ id location, timeService.events id = some location →
    ∃ node ∈ timeService.quantum location.target,
      node.id = location.node ∧ node.timeEvent.id = id
  nodup : ∀ target, ((timeService.quantum target).map fun node => node.timeEvent.id).Nodup

/-- A tick finds the temporary list empty and restarts no event of a whole turn, and a stop finds no
active event. -/
def KeepsLocations (settings : Settings) (timeService : TimeService) : Call → Prop
  | .operation .consume => timeService.stopped = true ∨
      timeService.quantum .temporaryQuantum = [] ∧
        ∀ node ∈ timeService.quantum (.timeTable timeService.currentQuantum),
          node.timeEvent.isPeriodical = true →
            settings.quanta node.timeEvent ≠ settings.maxQuantum
  | .operation (.activate _) => True
  | .operation (.cancel _) => True
  | .stop => timeService.stopped = true ∨ ∀ id, timeService.events id = none
  | .doInitialize => True

def Located (settings : Settings) (timeService : TimeService) : Prop :=
  ∃ index, Held settings timeService
    (timeService.quantum (.timeTable timeService.currentQuantum)) index ∧
      Placed timeService.events index

variable {settings : Settings} {timeService : TimeService} {timeEvent : TimeEvent}

theorem Held.location {timedout : List Node} {index : Index}
    (h : Held settings timeService timedout index) (hplaced : Placed timeService.events index)
    {id : Int} {place : Quantum × Node} (hindex : index id = some place) :
    timeService.events id = some ⟨place.1, place.2.id⟩ := by
  have heq := h.linked.events_eq id
  rw [hindex, Option.map_some] at heq
  obtain ⟨⟨target, node⟩, hlocation, rfl⟩ := Option.map_eq_some_iff.mp heq
  obtain rfl := hplaced id ⟨target, _⟩ place hlocation hindex
  exact hlocation

theorem Located.represents (h : Located settings timeService) : Represents timeService := by
  obtain ⟨index, hheld, hplaced⟩ := h
  have hindexed := hheld.linked.indexed
  rw [Function.update_eq_self] at hindexed
  refine ⟨fun target node hnode => ?_, fun id location hlocation => ?_, hindexed.nodup⟩
  · exact hheld.location hplaced (hindexed.held target node hnode)
  · have heq := hheld.linked.events_eq id
    rw [hlocation, Option.map_some] at heq
    obtain ⟨place, hindex, hnode⟩ := Option.map_eq_some_iff.mp heq.symm
    obtain ⟨hmem, hid⟩ := hindexed.found id place.1 place.2 hindex
    rw [hplaced id location place hlocation hindex]
    exact ⟨place.2, hmem, hnode, hid⟩

theorem located_instantiate (settings : Settings) : Located settings .instantiate :=
  ⟨_, Held.instantiate settings true, fun _ _ _ _ h => by cases h⟩

theorem TimeService.target_eq_temporary (hcurrent : timeService.currentQuantum < settings.maxQuantum)
    (hfits : 1 ≤ settings.quanta timeEvent ∧ settings.quanta timeEvent ≤ settings.maxQuantum) :
    timeService.target settings timeEvent = .temporaryQuantum ↔
      settings.quanta timeEvent = settings.maxQuantum := by
  have hdistance := timeService.target_distance hcurrent hfits
  cases htarget : timeService.target settings timeEvent with
  | temporaryQuantum =>
    rw [htarget] at hdistance
    exact ⟨fun _ => hdistance.symm, fun _ => rfl⟩
  | timeTable i =>
    rw [htarget] at hdistance
    have hlt : (i + settings.maxQuantum - timeService.currentQuantum) % settings.maxQuantum <
      settings.maxQuantum := Nat.mod_lt _ (Nat.lt_of_le_of_lt (Nat.zero_le _) hcurrent)
    rw [Quantum.distance] at hdistance
    exact ⟨fun h => (by cases h), fun h => (by omega)⟩

theorem foldl_expire_temporary (settings : Settings) (timedout : List Node)
    (timeService : TimeService) :
    (timedout.foldl (TimeService.expire settings) timeService).quantum .temporaryQuantum = [] ↔
      timeService.quantum .temporaryQuantum = [] ∧
        ∀ node ∈ timedout, node.timeEvent.isPeriodical = true →
          timeService.target settings node.timeEvent ≠ .temporaryQuantum := by
  induction timedout generalizing timeService with
  | nil => simp
  | cons node timedout ih =>
    have htarget (event : TimeEvent) : (timeService.expire settings node).target settings event =
        timeService.target settings event := by
      rw [TimeService.target, TimeService.target,
        (Held.expire_currentQuantum settings timeService node).1]
    have hfirst : (timeService.expire settings node).quantum .temporaryQuantum = [] ↔
        timeService.quantum .temporaryQuantum = [] ∧ (node.timeEvent.isPeriodical = true →
          timeService.target settings node.timeEvent ≠ .temporaryQuantum) := by
      rw [TimeService.expire]
      split
      · next hperiodical =>
        have hstore : (TimeService.store settings { timeService with
              events := Function.update timeService.events node.timeEvent.id none }
            node.timeEvent).quantum =
          Function.update timeService.quantum (timeService.target settings node.timeEvent)
            (⟨timeService.nextNode, node.timeEvent⟩ ::
              timeService.quantum (timeService.target settings node.timeEvent)) := rfl
        rw [hstore]
        by_cases htemporary : timeService.target settings node.timeEvent = .temporaryQuantum
        · rw [htemporary, Function.update_self]
          simp [hperiodical]
        · rw [Function.update_of_ne (Ne.symm htemporary)]
          simp [htemporary]
      · next hperiodical => simp [hperiodical]
    rw [List.foldl_cons, ih, hfirst, List.forall_mem_cons]
    simp only [htarget]
    tauto

theorem Held.temporary_iff {timedout : List Node} {index : Index}
    (h : Held settings timeService timedout index) :
    (timedout.foldl (TimeService.expire settings) timeService).quantum .temporaryQuantum = [] ↔
      timeService.quantum .temporaryQuantum = [] ∧
        ∀ node ∈ timedout, node.timeEvent.isPeriodical = true →
          settings.quanta node.timeEvent ≠ settings.maxQuantum := by
  rw [foldl_expire_temporary]
  refine and_congr_right fun _ => forall₂_congr fun node hnode => ?_
  have hindex := h.linked.indexed.held (.timeTable timeService.currentQuantum) node
    (by rw [Function.update_self]; exact hnode)
  rw [Ne, TimeService.target_eq_temporary h.current_lt (h.fits _ _ hindex)]

theorem Located.activate (h : Located settings timeService) (timeEvent : Option TimeEvent) :
    Located settings (timeService.step settings (.activate timeEvent)) := by
  rw [TimeService.step]
  cases hactivate : timeService.activate settings timeEvent with
  | error exception => exact h
  | ok after =>
    obtain ⟨event, rfl, hrange, hnone, rfl⟩ :=
      (activate_eq_ok (running_of_activate hactivate)).mp hactivate
    obtain ⟨index, hheld, hplaced⟩ := h
    have hquanta := settings.quanta_mem hrange.2 hrange.1
    exact ⟨_, hheld.store_rest hnone hquanta, hplaced.update _ _ _ (by simp)⟩

theorem Located.cancel (h : Located settings timeService) (timeEvent : Option TimeEvent) :
    Located settings (timeService.step settings (.cancel timeEvent)) := by
  cases timeEvent with
  | none => exact h
  | some event =>
    cases hlocation : timeService.events event.id with
    | none =>
      rw [TimeService.step, TimeService.cancel, hlocation]
      exact h
    | some location =>
      obtain ⟨index, hheld, hplaced⟩ := h
      refine ⟨Function.update index event.id none, hheld.cancel hlocation, ?_⟩
      simp only [TimeService.step, TimeService.cancel, hlocation]
      exact hplaced.update event.id none none (by simp)

theorem consume_eq (hrunning : timeService.stopped = false) :
    timeService.step settings .consume =
      ((timeService.quantum (.timeTable timeService.currentQuantum)).foldl
        (TimeService.expire settings) timeService).advance settings := by
  rw [TimeService.step, TimeService.consume, hrunning]
  rfl

theorem Located.consume (h : Located settings timeService)
    (hop : KeepsLocations settings timeService (.operation .consume)) :
    Located settings (timeService.step settings .consume) := by
  cases hstopped : timeService.stopped with
  | true =>
    rw [TimeService.step, TimeService.consume, hstopped]
    exact h
  | false =>
    obtain ⟨index, hheld, hplaced⟩ := h
    have hempty := hheld.temporary_iff.mpr (hop.resolve_left (by simp [hstopped]))
    obtain ⟨index', hwalked, hcurrent, -, -, hlocated⟩ := hheld.foldl_expire
    rw [consume_eq hstopped]
    refine ⟨_, hwalked.advance.1, fun id location place hlocation hplace => ?_⟩
    obtain ⟨own, hindex, rfl⟩ := Option.map_eq_some_iff.mp hplace
    have htemporary : own.1 ≠ .temporaryQuantum := by
      intro htemporary
      have hmem := (hwalked.linked.indexed.found id own.1 own.2 hindex).1
      rw [htemporary, Function.update_of_ne (by simp), hempty] at hmem
      cases hmem
    rw [Equiv.swap_apply_of_ne_of_ne (hwalked.current_empty hindex) htemporary]
    exact hlocated hplaced id location own hlocation hindex

/-- A tick that moves the temporary list leaves the old list pointer behind. -/
theorem Located.not_consume (h : Located settings timeService)
    (hop : ¬ KeepsLocations settings timeService (.operation .consume)) :
    ¬ Represents (timeService.step settings .consume) := by
  intro hrepresents
  obtain ⟨hrunning, hmoves⟩ := not_or.mp hop
  rw [Bool.not_eq_true] at hrunning
  obtain ⟨index, hheld, hplaced⟩ := h
  obtain ⟨index', hwalked, hcurrent, -, -, hlocated⟩ := hheld.foldl_expire
  rw [← hheld.temporary_iff] at hmoves
  obtain ⟨node, hnode⟩ := List.exists_mem_of_ne_nil _ hmoves
  have hindex := hwalked.linked.indexed.held .temporaryQuantum node
    (by rw [Function.update_of_ne (by simp)]; exact hnode)
  have hlocation := hwalked.location (hlocated hplaced) hindex
  rw [consume_eq hrunning] at hrepresents
  have hmoved := (hwalked.advance.1.linked.indexed.found node.timeEvent.id
    (.timeTable timeService.currentQuantum) node (by simp [hindex, hcurrent])).1
  rw [Function.update_eq_self] at hmoved
  have hmapped := hrepresents.mapped _ node hmoved
  rw [TimeService.advance, hlocation] at hmapped
  cases hmapped

theorem Located.call (h : Located settings timeService) {call : Call}
    (hop : KeepsLocations settings timeService call) :
    Located settings (timeService.call settings call) := by
  cases call with
  | operation operation => cases operation with
    | activate timeEvent => exact h.activate timeEvent
    | cancel timeEvent => exact h.cancel timeEvent
    | consume => exact h.consume hop
  | doInitialize =>
    obtain ⟨index, hheld, hplaced⟩ := h
    exact ⟨index, ⟨hheld.linked, hheld.current_lt, hheld.slot_lt, hheld.fits⟩, hplaced⟩
  | stop =>
    rw [TimeService.call]
    split
    · exact h
    · next hrunning =>
      have hnone : timeService.events = fun _ => none := funext (hop.resolve_left hrunning)
      obtain ⟨index, hheld, hplaced⟩ := h
      have hlinked := hheld.linked
      rw [hnone] at hlinked
      exact ⟨index, ⟨hlinked, hheld.current_lt, hheld.slot_lt, hheld.fits⟩, fun _ _ _ h => by cases h⟩

theorem Located.not_call (h : Located settings timeService) {call : Call}
    (hop : ¬ KeepsLocations settings timeService call) :
    ¬ Represents (timeService.call settings call) := by
  cases call with
  | operation operation => cases operation with
    | activate timeEvent => exact absurd trivial hop
    | cancel timeEvent => exact absurd trivial hop
    | consume => exact h.not_consume hop
  | doInitialize => exact absurd trivial hop
  | stop =>
    intro hrepresents
    obtain ⟨hrunning, hactive⟩ := not_or.mp hop
    obtain ⟨id, hid⟩ := not_forall.mp hactive
    obtain ⟨location, hlocation⟩ := Option.ne_none_iff_exists'.mp hid
    obtain ⟨node, hnode, -, rfl⟩ := h.represents.held id location hlocation
    rw [TimeService.call, if_neg hrunning] at hrepresents
    have hmapped := hrepresents.mapped location.target node hnode
    cases hmapped

/-- The map represents the lists after every call just when each tick leaves the temporary list where
it is and each stop finds no active event. -/
theorem represents_iff_keepsLocations (settings : Settings) (calls : List Call) :
    (∀ made, made <+: calls → Represents (Runs.run (TimeService.call settings) .instantiate made)) ↔
      Runs.Meets (TimeService.call settings) (KeepsLocations settings) .instantiate calls :=
  Runs.meets_iff_forall_prefix (fun _ h => h.represents) (fun _ _ h hop => h.call hop)
    (fun _ _ h hop => h.not_call hop) (located_instantiate settings)

/-- A tick behind the activation of an event of a whole turn, and a stop, leave the map and the lists
apart. -/
theorem not_represents_turn :
    ¬ Represents (Runs.run (TimeService.call twoSlots) .instantiate
      [.doInitialize, .operation (.activate (some ⟨1, 20, false⟩)), .operation .consume]) ∧
    ¬ Represents (Runs.run (TimeService.call twoSlots) .instantiate
      [.doInitialize, .operation (.activate (some ⟨1, 10, false⟩)), .stop]) := by
  constructor
  · intro h
    have hmapped := h.mapped (.timeTable 0) ⟨0, ⟨1, 20, false⟩⟩ (by decide)
    revert hmapped
    decide
  · intro h
    have hmapped := h.mapped (.timeTable 1) ⟨0, ⟨1, 10, false⟩⟩ (by decide)
    revert hmapped
    decide

end Coffee.Time
