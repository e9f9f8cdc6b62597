import Coffee.Time.Countdown

/-! # The timing wheel counts down

Every operation of the wheel answers as the countdowns of its events do, so each tick notifies just
the events that their activations and cancellations make due. A stop forgets the events and leaves
them in the wheel, so this lasts over a stop that finds no active event.
-/

namespace Coffee.Time

open Coffee.Library

/-- The wheel holds the active events at the distances of their countdowns, and none of them while the
service is stopped. -/
structure Counts (settings : Settings) (timeService : TimeService) (clock : Clock) : Prop where
  stopped : timeService.stopped = clock.stopped
  held : ∃ index,
    Held settings timeService (timeService.quantum (.timeTable timeService.currentQuantum)) index ∧
      remaining settings.maxQuantum timeService.currentQuantum index = clock.countdown
  idle : clock.stopped = true → ∀ id, clock.countdown id = none

variable {settings : Settings} {timeService : TimeService} {clock : Clock}

theorem Held.events_eq_none {timedout : List Node} {index : Index}
    (h : Held settings timeService timedout index) (id : Int) :
    timeService.events id = none ↔
      remaining settings.maxQuantum timeService.currentQuantum index id = none := by
  rw [remaining, Option.map_eq_none_iff, ← Option.map_eq_none_iff (f := Location.node),
    h.linked.events_eq, Option.map_eq_none_iff]

theorem Counts.events_eq_none (h : Counts settings timeService clock) (id : Int) :
    timeService.events id = none ↔ clock.countdown id = none := by
  obtain ⟨index, hheld, hcountdown⟩ := h.held
  rw [← hcountdown]
  exact hheld.events_eq_none id

theorem running_of_activate {timeEvent : Option TimeEvent} {after : TimeService}
    (h : timeService.activate settings timeEvent = .ok after) : timeService.stopped = false := by
  by_contra hstopped
  rw [Bool.not_eq_false] at hstopped
  cases timeEvent <;> simp [TimeService.activate, hstopped] at h

theorem activate_eq_ok (hrunning : timeService.stopped = false) {timeEvent : Option TimeEvent}
    {after : TimeService} :
    timeService.activate settings timeEvent = .ok after ↔ ∃ event, timeEvent = some event ∧
      (settings.resolution ≤ event.timeout ∧ event.timeout ≤ settings.maxTime) ∧
      timeService.events event.id = none ∧ timeService.store settings event = after := by
  have hpos := settings.resolution_pos
  cases timeEvent with
  | none => simp [TimeService.activate, hrunning]
  | some event =>
    simp only [TimeService.activate, hrunning, Bool.false_eq_true, if_false]
    constructor
    · intro h
      split at h
      · cases h
      · split at h
        · cases h
        · split at h
          · cases h
          · next hrange hnone =>
            refine ⟨event, rfl, by omega, Option.not_isSome_iff_eq_none.mp hnone, ?_⟩
            exact Except.ok.inj h
    · rintro ⟨own, hown, hrange, hnone, hstore⟩
      obtain rfl := Option.some.inj hown
      rw [if_neg (by omega), if_neg (by omega), hnone, hstore]
      rfl

theorem Counts.accepts (h : Counts settings timeService clock) (timeEvent : Option TimeEvent) :
    (timeService.activate settings timeEvent).isOk = clock.accepts settings timeEvent := by
  have hok : (timeService.activate settings timeEvent).isOk = true ↔
      ∃ after, timeService.activate settings timeEvent = .ok after := by
    cases timeService.activate settings timeEvent <;> simp [Except.isOk, Except.toBool]
  have hiff : (timeService.activate settings timeEvent).isOk = true ↔
      clock.accepts settings timeEvent = true := by
    rw [hok]
    cases hstopped : clock.stopped with
    | true =>
      refine iff_of_false (fun ⟨after, hafter⟩ => ?_) (by simp [Clock.accepts, hstopped])
      rw [← h.1, running_of_activate hafter] at hstopped
      cases hstopped
    | false =>
      cases timeEvent with
      | none => simp [activate_eq_ok (h.1.trans hstopped), Clock.accepts, Countdown.accepts]
      | some event =>
        simp [activate_eq_ok (h.1.trans hstopped), Clock.accepts_iff, hstopped, h.events_eq_none]
  exact Bool.eq_iff_iff.mpr hiff

theorem Counts.cancels (h : Counts settings timeService clock) (timeEvent : Option TimeEvent) :
    (timeService.cancel timeEvent).1 = clock.countdown.cancels timeEvent := by
  cases timeEvent with
  | none => rfl
  | some event =>
    have hevent := h.events_eq_none event.id
    cases hlocation : timeService.events event.id with
    | none => simp [TimeService.cancel, Countdown.cancels, hlocation, hevent.mp hlocation]
    | some location =>
      have hsome : clock.countdown event.id ≠ none := fun hnone => by
        rw [hevent.mpr hnone] at hlocation
        cases hlocation
      simp [TimeService.cancel, Countdown.cancels, hlocation, Option.isSome_iff_ne_none, hsome]

theorem Counts.activate (h : Counts settings timeService clock) (timeEvent : Option TimeEvent) :
    Counts settings (timeService.step settings (.activate timeEvent))
      (clock.call settings (.operation (.activate timeEvent))) := by
  have haccepts := h.accepts timeEvent
  rw [TimeService.step]
  cases hactivate : timeService.activate settings timeEvent with
  | error exception =>
    rw [hactivate] at haccepts
    cases timeEvent with
    | none => rwa [Clock.call_activate_none]
    | some event =>
      rw [Clock.call_activate_some, ← haccepts]
      exact h
  | ok after =>
    obtain ⟨event, rfl, hrange, hnone, rfl⟩ :=
      (activate_eq_ok (running_of_activate hactivate)).mp hactivate
    rw [Clock.call_activate_some, ← haccepts, hactivate]
    obtain ⟨index, hheld, hcountdown⟩ := h.held
    have hquanta := settings.quanta_mem hrange.2 hrange.1
    have hrunning := h.stopped.symm.trans (running_of_activate hactivate)
    refine ⟨h.stopped, ⟨_, hheld.store_rest hnone hquanta, ?_⟩, fun hstopped => ?_⟩
    · exact (hheld.store_remaining hquanta).trans (by rw [hcountdown]; rfl)
    · cases hrunning.symm.trans hstopped

theorem Counts.cancel (h : Counts settings timeService clock) (timeEvent : Option TimeEvent) :
    Counts settings (timeService.step settings (.cancel timeEvent))
      (clock.call settings (.operation (.cancel timeEvent))) := by
  cases timeEvent with
  | none => exact h
  | some event =>
    cases hlocation : timeService.events event.id with
    | none =>
      have hsame : Function.update clock.countdown event.id none = clock.countdown := by
        rw [← (h.events_eq_none event.id).mp hlocation, Function.update_eq_self]
      rw [Clock.call_cancel_some, hsame, TimeService.step, TimeService.cancel, hlocation]
      exact h
    | some location =>
      obtain ⟨hsame, ⟨index, hheld, hcountdown⟩, hidle⟩ := h
      have hrest : (timeService.cancel (some event)).2.stopped = timeService.stopped ∧
          (timeService.cancel (some event)).2.currentQuantum = timeService.currentQuantum := by
        simp [TimeService.cancel, hlocation]
      refine ⟨hrest.1.trans hsame, ⟨Function.update index event.id none,
        hheld.cancel hlocation, ?_⟩, fun hstopped id => ?_⟩
      · rw [TimeService.step, hrest.2, remaining_update, Option.map_none, hcountdown]
        rfl
      · change Function.update clock.countdown event.id none id = none
        rw [Function.update_apply, hidle hstopped, ite_self]

theorem Held.id_eq {timedout : List Node} {index : Index}
    (h : Held settings timeService timedout index) {id : Int} {counted : TimeEvent × Nat}
    (hcounted :
      remaining settings.maxQuantum timeService.currentQuantum index id = some counted) :
    counted.1.id = id := by
  obtain ⟨place, hindex, rfl⟩ := Option.map_eq_some_iff.mp hcounted
  exact (h.linked.indexed.found id place.1 place.2 hindex).2

theorem Held.mem_timedout_iff {timedout : List Node} {index : Index}
    (h : Held settings timeService timedout index) (timeEvent : TimeEvent) :
    (∃ node ∈ timedout, node.timeEvent = timeEvent) ↔
      remaining settings.maxQuantum timeService.currentQuantum index timeEvent.id =
        some (timeEvent, 0) := by
  have hone := settings.one_lt_maxQuantum
  constructor
  · rintro ⟨node, hnode, rfl⟩
    have hindex := h.linked.indexed.held (.timeTable timeService.currentQuantum) node
      (by rw [Function.update_self]; exact hnode)
    rw [remaining, hindex, Option.map_some, distance_eq h.current_lt h.current_lt,
      if_pos (Nat.le_refl _), Nat.sub_self]
  · intro hremaining
    obtain ⟨⟨place, node⟩, hindex, hcounted⟩ := Option.map_eq_some_iff.mp hremaining
    obtain ⟨rfl, hdistance⟩ := Prod.mk.inj hcounted
    refine ⟨node, ?_, rfl⟩
    have hmem := (h.linked.indexed.found _ _ _ hindex).1
    have hcurrent := h.current_lt
    cases place with
    | temporaryQuantum =>
      simp only [Quantum.distance] at hdistance
      omega
    | timeTable i =>
      have hi := h.slot_lt _ _ _ hindex
      rw [distance_eq h.current_lt hi] at hdistance
      obtain rfl : i = timeService.currentQuantum := by
        split at hdistance <;> omega
      rwa [Function.update_self] at hmem

theorem Held.timedout_nodup {timedout : List Node} {index : Index}
    (h : Held settings timeService timedout index) :
    (timedout.map fun node => node.timeEvent.id).Nodup := by
  have hnodup := h.linked.indexed.nodup (.timeTable timeService.currentQuantum)
  rwa [Function.update_self] at hnodup

theorem Counts.notified (h : Counts settings timeService clock) :
    ((timeService.consume settings).1.map (·.id)).Nodup ∧
      ∀ timeEvent, timeEvent ∈ (timeService.consume settings).1 ↔
        clock.countdown timeEvent.id = some (timeEvent, 0) := by
  obtain ⟨hsame, ⟨index, hheld, hcountdown⟩, hidle⟩ := h
  rw [TimeService.consume]
  cases hrunning : timeService.stopped with
  | true => simp [hidle (hsame.symm.trans hrunning)]
  | false =>
    rw [← hcountdown]
    refine ⟨?_, fun timeEvent => ?_⟩
    · simp only [Bool.false_eq_true, if_false, List.map_map]
      exact hheld.timedout_nodup
    · simp only [Bool.false_eq_true, if_false, List.mem_map]
      exact hheld.mem_timedout_iff timeEvent

theorem foldl_restart_of_not_mem {timedout : List Node} (countdown : Countdown) {id : Int}
    (h : ∀ node ∈ timedout, node.timeEvent.id ≠ id) :
    timedout.foldl (fun remaining node =>
      Function.update remaining node.timeEvent.id (restart settings node.timeEvent)) countdown id =
        countdown id := by
  induction timedout generalizing countdown with
  | nil => rfl
  | cons node timedout ih =>
    rw [List.foldl_cons, ih _ fun other hother => h other (List.mem_cons_of_mem _ hother),
      Function.update_of_ne (h node List.mem_cons_self).symm]

theorem foldl_restart_of_mem {timedout : List Node} (countdown : Countdown) {node : Node}
    (hnodup : (timedout.map fun node => node.timeEvent.id).Nodup) (hnode : node ∈ timedout) :
    timedout.foldl (fun remaining node =>
      Function.update remaining node.timeEvent.id (restart settings node.timeEvent)) countdown
        node.timeEvent.id = restart settings node.timeEvent := by
  induction timedout generalizing countdown with
  | nil => cases hnode
  | cons first timedout ih =>
    rw [List.map_cons, List.nodup_cons] at hnodup
    rw [List.foldl_cons]
    rcases List.mem_cons.mp hnode with rfl | hnode
    · rw [foldl_restart_of_not_mem, Function.update_self]
      intro other hother hid
      exact hnodup.1 (hid ▸ List.mem_map_of_mem hother)
    · exact ih _ hnodup.2 hnode

/-- While the service is stopped, no tick is processed and none could bring an event nearer. -/
theorem Counts.consume_stopped (h : Counts settings timeService clock)
    (hstopped : timeService.stopped = true) :
    timeService.step settings .consume = timeService ∧
      clock.call settings (.operation .consume) = clock := by
  have hnone : clock.countdown = fun _ => none :=
    funext (h.idle (h.stopped.symm.trans hstopped))
  constructor
  · simp [TimeService.step, TimeService.consume, hstopped]
  · rw [Clock.call_consume, hnone]
    exact congrArg (Clock.mk clock.stopped) hnone.symm

theorem Counts.consume (h : Counts settings timeService clock) :
    Counts settings (timeService.step settings .consume)
      (clock.call settings (.operation .consume)) := by
  cases hrunning : timeService.stopped with
  | true =>
    obtain ⟨hservice, hclock⟩ := h.consume_stopped hrunning
    rwa [hservice, hclock]
  | false =>
  obtain ⟨hsame, ⟨index, hheld, hcountdown⟩, -⟩ := h
  have hstep : timeService.step settings .consume =
      ((timeService.quantum (.timeTable timeService.currentQuantum)).foldl
        (TimeService.expire settings) timeService).advance settings := by
    rw [TimeService.step, TimeService.consume, hrunning]
    rfl
  obtain ⟨index', hwalked, hcurrent, hstopped, hremaining, -⟩ := hheld.foldl_expire
  obtain ⟨hafter, hnearer⟩ := hwalked.advance
  rw [hstep]
  refine ⟨hstopped.trans hsame, ⟨_, hafter, ?_⟩, fun hstopped => ?_⟩
  case refine_2 => cases hrunning.symm.trans (hsame.trans hstopped)
  funext id
  rw [hnearer, hcurrent, hremaining]
  simp only [Clock.call, Countdown.step, Countdown.tick, ← hcountdown]
  split
  · next hnone =>
    rw [foldl_restart_of_not_mem, hnone, Option.map_none]
    intro node hnode hid
    have hzero := (hheld.mem_timedout_iff node.timeEvent).mp ⟨node, hnode, rfl⟩
    rw [hid, hnone] at hzero
    cases hzero
  · next timeEvent hzero =>
    obtain rfl := hheld.id_eq hzero
    obtain ⟨node, hnode, rfl⟩ := (hheld.mem_timedout_iff timeEvent).mpr hzero
    rw [foldl_restart_of_mem _ hheld.timedout_nodup hnode]
  · next timeEvent ticks hticks =>
    rw [foldl_restart_of_not_mem, hticks, Option.map_some]
    · rfl
    intro node hnode hid
    have hzero := (hheld.mem_timedout_iff node.timeEvent).mp ⟨node, hnode, rfl⟩
    rw [hid, hticks] at hzero
    cases hzero

theorem Counts.doStop (h : Counts settings timeService clock)
    (hidle : ∀ id, timeService.events id = none) :
    Counts settings timeService.doStop { clock with stopped := true } := by
  obtain ⟨index, hheld, hcountdown⟩ := h.held
  have hlinked := hheld.linked
  rw [funext hidle] at hlinked
  exact ⟨rfl, ⟨index, ⟨hlinked, hheld.current_lt, hheld.slot_lt, hheld.fits⟩, hcountdown⟩,
    fun _ id => (h.events_eq_none id).mp (hidle id)⟩

namespace TimeService

/-- A stop finds no active event. -/
def StopsIdle (timeService : TimeService) : Call → Prop
  | .stop => timeService.stopped = true ∨ ∀ id, timeService.events id = none
  | _ => True

end TimeService

theorem Counts.call (h : Counts settings timeService clock) {call : Call}
    (hidle : timeService.StopsIdle call) :
    Counts settings (timeService.call settings call) (clock.call settings call) := by
  cases call with
  | operation operation => cases operation with
    | activate timeEvent => exact h.activate timeEvent
    | cancel timeEvent => exact h.cancel timeEvent
    | consume => exact h.consume
  | doInitialize =>
    obtain ⟨index, hheld, hcountdown⟩ := h.held
    exact ⟨rfl, ⟨index, ⟨hheld.linked, hheld.current_lt, hheld.slot_lt, hheld.fits⟩, hcountdown⟩,
      nofun⟩
  | stop =>
    rw [TimeService.call]
    split
    · next hstopped =>
      exact ⟨hstopped, h.held, fun _ => h.idle (h.stopped.symm.trans hstopped)⟩
    · next hrunning => exact h.doStop (hidle.resolve_left hrunning)

namespace TimeService

def reached (settings : Settings) (calls : List Call) : TimeService :=
  Runs.run (call settings) instantiate calls

/-- The call is no cancellation of `id` that returns `true`. -/
def Keeps (id : Int) (timeService : TimeService) (call : Call) : Prop :=
  ∀ timeEvent, call = .operation (.cancel (some timeEvent)) → timeEvent.id = id →
    (timeService.cancel (some timeEvent)).1 = false

/-- The event was accepted in `calls`, no cancellation of it returned `true` since, and the tick
behind `calls` is one of those after its activation in which it is due. -/
def Due (settings : Settings) (calls : List Call) (timeEvent : TimeEvent) : Prop :=
  ∃ before since, calls = before ++ .operation (.activate (some timeEvent)) :: since ∧
    ((reached settings before).activate settings (some timeEvent)).isOk = true ∧
    Runs.Meets (call settings) (Keeps timeEvent.id)
      (reached settings (before ++ [.operation (.activate (some timeEvent))])) since ∧
    DueAt settings timeEvent (ticks since + 1)

variable {calls : List Call}

theorem counts_reached (hcalls : Runs.Meets (call settings) StopsIdle instantiate calls) :
    Counts settings (reached settings calls) (Clock.after settings calls) :=
  hcalls.simulation (fun _ _ _ h hidle => h.call hidle)
    ⟨rfl, ⟨_, Held.instantiate settings true, rfl⟩, fun _ _ => rfl⟩

theorem due_iff_active (hcalls : Runs.Meets (call settings) StopsIdle instantiate calls)
    (timeEvent : TimeEvent) :
    Due settings calls timeEvent ↔ Clock.Active settings calls timeEvent 0 := by
  refine exists_congr fun before => exists_congr fun since => and_congr_right fun hsplit => ?_
  subst hsplit
  rw [List.append_cons, Runs.meets_append] at hcalls
  have hbefore := (Runs.meets_append.mp hcalls.1).1
  rw [(counts_reached hbefore).accepts]
  refine and_congr_right fun haccepts => and_congr ?_ ?_
  · exact hcalls.2.meets_iff_of_simulation (fun _ _ _ h hidle => h.call hidle)
      (fun _ _ _ h => forall_congr' fun _ => by rw [h.cancels]) (counts_reached hcalls.1)
  · obtain ⟨-, ⟨hge, hle⟩, -⟩ := Clock.accepts_iff.mp haccepts
    exact (phase_zero_iff (settings.quanta_mem hle hge).1).symm

/-- Over any starts and stops, as long as no stop finds an active event, the wheel refines the
countdowns of its events: a tick notifies no event twice, and just the events that are due in it. -/
theorem notified_iff_due (settings : Settings)
    (hcalls : Runs.Meets (call settings) StopsIdle instantiate calls) :
    (((reached settings calls).consume settings).1.map (·.id)).Nodup ∧
      ∀ timeEvent, timeEvent ∈ ((reached settings calls).consume settings).1 ↔
        Due settings calls timeEvent := by
  obtain ⟨hnodup, hmem⟩ := (counts_reached hcalls).notified
  refine ⟨hnodup, fun timeEvent => ?_⟩
  rw [hmem, Clock.after_eq_some_iff, due_iff_active hcalls]

end TimeService

def twoSlots : Settings := ⟨20, 10, by decide, by decide⟩

namespace TimeService

/-- The stop forgets the event and leaves it in the wheel, so the cancellation finds the second one only. -/
def leftBehind : List Call :=
  let timeEvent : TimeEvent := ⟨1, 10, false⟩
  [.doInitialize, .operation (.activate (some timeEvent)), .stop, .doInitialize,
    .operation (.activate (some timeEvent)), .operation (.cancel (some timeEvent)),
    .operation .consume]

theorem not_notified_iff_due : ¬ ∀ (settings : Settings) (calls : List Call) (timeEvent : TimeEvent),
    timeEvent ∈ ((reached settings calls).consume settings).1 ↔ Due settings calls timeEvent := by
  intro h
  obtain ⟨before, since, hsplit, -, hmeets, -⟩ :=
    (h twoSlots leftBehind ⟨1, 10, false⟩).mp (by decide)
  simp only [leftBehind, List.cons_eq_append_iff, List.cons.injEq, reduceCtorEq, false_and,
    and_false, true_and, Call.operation.injEq, List.nil_eq, List.append_eq_nil_iff, exists_const,
    or_self, or_false, ↓existsAndEq, false_or] at hsplit
  obtain ⟨-, rfl, ⟨rfl, rfl⟩ | ⟨rfl, rfl⟩⟩ := hsplit
  · cases hmeets.2.2.2.1 ⟨1, 10, false⟩ rfl rfl
  · cases hmeets.1 ⟨1, 10, false⟩ rfl rfl

def restarted : List Call :=
  let timeEvent : TimeEvent := ⟨1, 10, false⟩
  [.doInitialize, .operation (.activate (some timeEvent)), .operation .consume, .operation .consume,
    .stop, .doInitialize, .operation (.activate (some timeEvent)), .operation .consume]

theorem notified_iff_due_restarted :
    (((reached twoSlots restarted).consume twoSlots).1.map (·.id)).Nodup ∧
      ∀ timeEvent, timeEvent ∈ ((reached twoSlots restarted).consume twoSlots).1 ↔
        Due twoSlots restarted timeEvent := by
  refine notified_iff_due twoSlots ⟨trivial, trivial, trivial, trivial, .inr fun id => ?_, trivial,
    trivial, trivial, trivial⟩
  change Function.update (Function.update (fun _ => none) 1 _) 1 none id = none
  by_cases hid : id = 1
  · rw [hid, Function.update_self]
  · rw [Function.update_of_ne hid, Function.update_of_ne hid]

end TimeService

end Coffee.Time
