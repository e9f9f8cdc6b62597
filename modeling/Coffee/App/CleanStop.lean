import Coffee.App.StartOrder

/-! # Clean stops

What a stop calls and leaves, and what leaves a start that throws: its own exception, unless the stop
in its `catch` block throws another.
-/

namespace Coffee.App

open Coffee.Basis Coffee.Library Library.Dependency Relation

/-- The exception that leaves `start`: its own, or that of the stop behind it. -/
inductive Thrown where
  | alreadyRunning | original | stop
deriving DecidableEq, Repr

namespace Application

/-- The stop behind the start-up and `run`, in the `catch` block when one of them has thrown. -/
def finish (behaviour : Behaviour) (application : Application) (fails : Bool) :
    Option Thrown × Application :=
  let (stops, application) := application.stop behaviour
  (if stops then if fails then some .original else none else some .stop, application)

/-- `start`, with the exception that leaves it. -/
def startThrowing (behaviour : Behaviour) (fuel : Nat) (application : Application) :
    Option (Option Thrown × Application) :=
  if application.m_statusFlags = .Running then some (some .alreadyRunning, application)
  else match application.started behaviour fuel with
  | none => none
  | some (false, application) => some (application.finish behaviour true)
  | some (true, application) => some (application.finish behaviour (!behaviour.run application))

def fails (behaviour : Behaviour) (fuel : Nat) (application : Application) : Option Bool :=
  (application.started behaviour fuel).map fun (returns, ended) => !(returns && behaviour.run ended)

theorem start_eq_startThrowing (behaviour : Behaviour) (fuel : Nat) (application : Application) :
    application.start behaviour fuel = (application.startThrowing behaviour fuel).map
      fun (thrown, after) => (thrown.isNone, after) := by
  rw [start, startThrowing]
  split
  · rfl
  · rcases application.started behaviour fuel with _ | ⟨_ | _, ended⟩
    · rfl
    · simp only [finish, Option.map_some]
      cases (ended.stop behaviour).1 <;> rfl
    · simp only [finish, Option.map_some]
      cases (ended.stop behaviour).1 <;> cases behaviour.run ended <;> rfl

def stopping (application : Application) (services : List Nat) : List Nat :=
  services.filter fun service => (application.status service).isStopped = false

end Application

section Made

variable {outcome : List Event → Bool} {base rest : List Event} {event first : Event}
  {returns : Bool}

theorem made_cons : Made outcome base (base ++ first :: rest) event returns ↔
    (first = event ∧ outcome (base ++ [first]) = returns) ∨
      Made outcome (base ++ [first]) (base ++ first :: rest) event returns := by
  have hsplit : base ++ first :: rest = (base ++ [first]) ++ rest := by simp
  constructor
  · rintro ⟨history, ⟨between, rfl⟩, hhistory, houtcome⟩
    cases between with
    | nil =>
      rw [List.append_nil] at hhistory houtcome
      have hsame := List.cons_prefix_cons.mp ((List.prefix_append_right_inj base).mp hhistory)
      obtain ⟨rfl, -⟩ := hsame
      exact .inl ⟨rfl, houtcome⟩
    | cons second between =>
      have hinner := hhistory
      rw [List.append_assoc, List.prefix_append_right_inj, List.cons_append,
        List.cons_prefix_cons] at hinner
      obtain ⟨rfl, -⟩ := hinner
      exact .inr ⟨base ++ second :: between, ⟨between, by simp⟩, hhistory, houtcome⟩
  · rintro (⟨rfl, houtcome⟩ | ⟨history, hbase, hhistory, houtcome⟩)
    · exact ⟨base, List.prefix_refl _, ⟨rest, by simp⟩, houtcome⟩
    · exact ⟨history, (List.prefix_append _ _).trans hbase, hhistory, houtcome⟩

theorem made_append {events : List Event} (hbase : base <+: events) :
    Made outcome base (events ++ rest) event returns ↔
      Made outcome base events event returns ∨
        Made outcome events (events ++ rest) event returns := by
  constructor
  · rintro ⟨history, hhistory, hlast, houtcome⟩
    rcases prefix_concat_cases (List.prefix_append events rest) hlast with hearlier | hlater
    · exact .inl ⟨history, hhistory, hearlier, houtcome⟩
    · exact .inr ⟨history, hlater, hlast, houtcome⟩
  · rintro (h | ⟨history, hhistory, hlast, houtcome⟩)
    · exact h.mono (List.prefix_append events rest)
    · exact ⟨history, hbase.trans hhistory, hlast, houtcome⟩

theorem Made.count_lt {events : List Event} (h : Made outcome base events event returns) :
    base.count event < events.count event := by
  obtain ⟨history, hbase, hlast, -⟩ := h
  have hle := hbase.sublist.count_le event
  have hlt := hlast.sublist.count_le event
  rw [List.count_append, List.count_singleton_self] at hlt
  omega

theorem Made.mem {events : List Event} (h : Made outcome base (base ++ events) event returns) :
    event ∈ events := by
  obtain ⟨history, ⟨between, rfl⟩, hhistory, -⟩ := h
  rw [List.append_assoc, List.prefix_append_right_inj] at hhistory
  exact hhistory.subset (List.mem_append_right _ (List.mem_singleton_self event))

end Made

/-- What `stopServices` does when it calls the services `called`, in their order. -/
structure Stops (outcome : List Event → Bool) (application after : Application)
    (called : List Nat) (stops : Bool) : Prop where
  m_statusFlags : after.m_statusFlags = application.m_statusFlags
  services : after.services = application.services
  m_services : after.m_services = application.m_services
  events : after.events = application.events ++ called.map Event.doStop
  stopped : ∀ service ∈ called, (after.status service).isStopped = true
  withError : ∀ service ∈ called, after.status service = .StoppedWithError ↔
    Made outcome application.events after.events (.doStop service) false
  unchanged : ∀ service ∉ called, after.status service = application.status service
  throws : stops = false ↔
    ∃ service, Made outcome application.events after.events (.doStop service) false

section Stops

variable {outcome run : List Event → Bool} {application after : Application} {service : Nat}
  {services called : List Nat} {stops : Bool}

theorem Stops.nil (outcome : List Event → Bool) (application : Application) :
    Stops outcome application application [] true where
  m_statusFlags := rfl
  services := rfl
  m_services := rfl
  events := (List.append_nil _).symm
  stopped _ hservice := absurd hservice List.not_mem_nil
  withError _ hservice := absurd hservice List.not_mem_nil
  unchanged _ _ := rfl
  throws := by
    refine iff_of_false (by simp) ?_
    rintro ⟨service, hmade⟩
    exact not_made_self hmade

def Application.stoppedService (outcome : List Event → Bool) (application : Application)
    (service : Nat) : Application :=
  (application.called (.doStop service)).setStatus service
    (if outcome (application.events ++ [.doStop service]) then .Stopped else .StoppedWithError)

theorem Stops.cons (hnew : service ∉ called)
    (h : Stops outcome (application.stoppedService outcome service) after called stops) :
    Stops outcome application after (service :: called)
      (outcome (application.events ++ [.doStop service]) && stops) := by
  have hevents : after.events =
      application.events ++ Event.doStop service :: called.map Event.doStop := by
    rw [h.events]
    simp [Application.stoppedService, Application.called, Application.setStatus]
  have hmade (other : Nat) : Made outcome application.events after.events (.doStop other) false ↔
      (service = other ∧ outcome (application.events ++ [.doStop service]) = false) ∨
        Made outcome (application.stoppedService outcome service).events after.events
          (.doStop other) false := by
    rw [hevents, made_cons, Event.doStop.injEq]
    rfl
  have hself : after.status service =
      if outcome (application.events ++ [.doStop service]) then .Stopped else .StoppedWithError :=
    (h.unchanged service hnew).trans (Function.update_self _ _ _)
  have hlater : ¬ Made outcome (application.stoppedService outcome service).events after.events
      (.doStop service) false := by
    intro hmade
    rw [h.events] at hmade
    obtain ⟨other, hother, heq⟩ := List.mem_map.mp hmade.mem
    exact hnew (Event.doStop.inj heq ▸ hother)
  refine ⟨h.m_statusFlags, h.services, h.m_services, hevents, fun other hother => ?_,
    fun other hother => ?_, fun other hother => ?_, ?_⟩
  · rcases List.mem_cons.mp hother with rfl | hother
    · rw [hself]
      cases outcome (application.events ++ [.doStop other]) <;> rfl
    · exact h.stopped other hother
  · rcases List.mem_cons.mp hother with rfl | hother
    · rw [hself, hmade]
      cases houtcome : outcome (application.events ++ [.doStop other])
      · exact iff_of_true rfl (.inl ⟨rfl, rfl⟩)
      · exact iff_of_false (by simp) (by simpa using hlater)
    · have hne : service ≠ other := fun heq => hnew (heq ▸ hother)
      rw [h.withError other hother, hmade]
      simp [hne]
  · obtain ⟨hne, hother⟩ : other ≠ service ∧ other ∉ called := by simpa using hother
    exact (h.unchanged other hother).trans (Function.update_of_ne hne _ _)
  · have hthrows := h.throws
    simp only [Bool.and_eq_false_iff, hthrows, hmade, exists_or]
    simp

theorem stopServices_stops (hnodup : services.Nodup) :
    Stops outcome application (application.stopServices (.of outcome run) services).2
      (application.stopping services)
      (application.stopServices (.of outcome run) services).1 := by
  induction services generalizing application with
  | nil => exact .nil outcome application
  | cons service services ih =>
    obtain ⟨hnew, hnodup⟩ := List.nodup_cons.mp hnodup
    rw [Application.stopServices, Application.stopService]
    cases hstopped : (application.status service).isStopped with
    | true =>
      have hskip : application.stopping (service :: services) = application.stopping services :=
        List.filter_cons_of_neg (by simp [hstopped])
      rw [hskip]
      simpa using ih hnodup
    | false =>
      have hrest : (application.stoppedService outcome service).stopping services =
          application.stopping services := by
        refine List.filter_congr fun other hother => ?_
        have hne : other ≠ service := fun heq => hnew (heq ▸ hother)
        simp [Application.stoppedService, Application.setStatus, Application.called,
          Function.update_of_ne hne]
      have hcall : application.stopping (service :: services) =
          service :: application.stopping services :=
        List.filter_cons_of_pos (by simp [hstopped])
      have hstops := @ih (application.stoppedService outcome service) hnodup
      rw [hrest] at hstops
      rw [hcall]
      exact .cons (fun hmem => hnew (List.mem_of_mem_filter hmem)) hstops

end Stops

/-- What a stop leaves of an application that was not stopped. -/
structure Halted (outcome : List Event → Bool) (application after : Application) (stops : Bool) :
    Prop where
  m_statusFlags : after.m_statusFlags.isStopped = true
  stopped : ∀ service ∈ application.m_services, (after.status service).isStopped = true
  throws : stops = false ↔
    ∃ service, Made outcome application.events after.events (.doStop service) false
  withError : after.m_statusFlags = .StoppedWithError ↔ stops = false
  serviceWithError : ∀ service, after.status service = .StoppedWithError ↔
    Made outcome application.events after.events (.doStop service) false ∨
      application.status service = .StoppedWithError
  called : ∀ service, after.events.count (.doStop service) =
    application.events.count (.doStop service) +
      if service ∈ application.m_services ∧ (application.status service).isStopped = false then 1
      else 0

section Halted

variable {outcome run : List Event → Bool} {application after : Application} {service : Nat}
  {services : List Nat} {stops : Bool}

theorem Application.mem_stopping : service ∈ application.stopping services ↔
    service ∈ services ∧ (application.status service).isStopped = false := by
  rw [Application.stopping, List.mem_filter, decide_eq_true_eq]

theorem stop_stops (hnodup : application.m_services.Nodup)
    (hflags : application.m_statusFlags.isStopped = false) :
    ∃ stops ended, Stops outcome application ended (application.stopping application.m_services)
        stops ∧
      application.stop (.of outcome run) = (stops, { ended with
        m_statusFlags := if stops then .Stopped else .StoppedWithError }) := by
  refine ⟨(application.stopServices (.of outcome run) application.m_services).1,
    (application.stopServices (.of outcome run) application.m_services).2,
    stopServices_stops hnodup, ?_⟩
  rw [Application.stop, hflags]
  rfl

theorem Stops.mem (h : Stops outcome application after (application.stopping services) stops)
    {returns : Bool} (hmade : Made outcome application.events after.events (.doStop service) returns) :
    service ∈ services ∧ (application.status service).isStopped = false := by
  rw [h.events] at hmade
  obtain ⟨other, hother, heq⟩ := List.mem_map.mp hmade.mem
  obtain rfl := Event.doStop.inj heq
  exact Application.mem_stopping.mp hother

theorem Stops.isStopped (h : Stops outcome application after (application.stopping services) stops)
    (hmem : service ∈ services) : (after.status service).isStopped = true := by
  cases hstatus : (application.status service).isStopped with
  | true =>
    have hskip : service ∉ application.stopping services := by
      intro hcalled
      rw [(Application.mem_stopping.mp hcalled).2] at hstatus
      cases hstatus
    rw [h.unchanged service hskip]
    exact hstatus
  | false => exact h.stopped service (Application.mem_stopping.mpr ⟨hmem, hstatus⟩)

theorem Stops.withError_iff
    (h : Stops outcome application after (application.stopping services) stops) (service : Nat) :
    after.status service = .StoppedWithError ↔
      Made outcome application.events after.events (.doStop service) false ∨
        application.status service = .StoppedWithError := by
  rcases Decidable.em (service ∈ application.stopping services) with hcalled | hskip
  · rw [h.withError service hcalled]
    refine (or_iff_left fun hbefore => ?_).symm
    have hnot := (Application.mem_stopping.mp hcalled).2
    rw [hbefore] at hnot
    cases hnot
  · rw [h.unchanged service hskip]
    exact (or_iff_right fun hmade => hskip (Application.mem_stopping.mpr (h.mem hmade))).symm

theorem Stops.count (h : Stops outcome application after (application.stopping services) stops)
    (hnodup : services.Nodup) (service : Nat) : after.events.count (.doStop service) =
      application.events.count (.doStop service) +
        if service ∈ services ∧ (application.status service).isStopped = false then 1 else 0 := by
  have hinjective : Function.Injective Event.doStop := fun a b heq => Event.doStop.inj heq
  have hcalls : (application.stopping services).Nodup := hnodup.filter _
  rw [h.events, List.count_append, List.count_map_of_injective _ _ hinjective]
  split
  · next hcalled =>
    rw [List.count_eq_one_of_mem hcalls (Application.mem_stopping.mpr hcalled)]
  · next hskip =>
    rw [List.count_eq_zero_of_not_mem fun hcalled => hskip (Application.mem_stopping.mp hcalled)]

theorem stop_halted (hnodup : application.m_services.Nodup)
    (hflags : application.m_statusFlags.isStopped = false) :
    Halted outcome application (application.stop (.of outcome run)).2
      (application.stop (.of outcome run)).1 := by
  have hstop : ∃ stops ended, Stops outcome application ended
        (application.stopping application.m_services) stops ∧
      application.stop (.of outcome run) = (stops, { ended with
        m_statusFlags := if stops then .Stopped else .StoppedWithError }) := stop_stops hnodup hflags
  obtain ⟨stops, ended, h, hafter⟩ := hstop
  rw [hafter]
  refine ⟨?_, fun service hmem => h.isStopped hmem, h.throws, ?_, h.withError_iff, h.count hnodup⟩
  · cases stops <;> rfl
  · cases stops <;> simp

end Halted

/-- What the start-up leaves, whether it returns or throws. A service that was called with success
runs, unless it was called again and threw. -/
structure StartedUp (outcome : List Event → Bool) (application ended : Application) : Prop where
  services : ended.services = application.services
  m_services : ended.m_services = application.m_services
  events : application.events <+: ended.events
  m_statusFlags : ended.m_statusFlags.isStopped = false
  status_cases : ∀ service,
    ended.status service = .Running ∨ (ended.status service).isStopped = true
  withError : ∀ service, ended.status service = .StoppedWithError →
    application.status service = .StoppedWithError
  detached : ∀ service ∉ application.m_services,
    ended.status service = application.status service
  stops : ∀ service, ended.events.count (.doStop service) =
    application.events.count (.doStop service)
  running : ∀ service, Made outcome application.events ended.events (.doInitialize service) true →
    (ended.status service = .Running ↔
      ¬ Made outcome application.events ended.events (.doInitialize service) false)

section StartedUp

variable {outcome run : List Event → Bool} {application middle ended : Application} {service : Nat}
  {done rest : List Nat} {fuel : Nat} {returns : Bool}

theorem Turn.startedUp (h : Turn outcome application.begin ended done rest)
    (hstopped : ∀ service, (application.status service).isStopped = true) :
    StartedUp outcome application { ended with m_statusFlags := .Running } where
  services := h.moves.services
  m_services := h.moves.m_services
  events := h.moves.events
  m_statusFlags := rfl
  status_cases := h.status_cases hstopped
  withError := h.moves.withError
  detached := h.moves.detached
  stops := h.moves.stops
  running service hmade := iff_of_true ((h.running_iff hstopped service).mpr hmade) (h.returned _)

theorem Turn.startedUp_of_fails (h : Turn outcome application.begin middle done (service :: rest))
    (hstopped : ∀ service, (application.status service).isStopped = true)
    (hstart : middle.startService (.of outcome run) fuel service = some (false, ended)) :
    StartedUp outcome application ended := by
  rcases h.fails hstopped hstart with ⟨hmoves, other, -, hreason⟩ | ⟨hrunning, houtcome, rfl⟩
  · have hcalled : ∀ service,
        Made outcome application.events ended.events (.doInitialize service) true →
          ¬ Made outcome application.events ended.events (.doInitialize service) false := by
      intro service hmade
      rcases hreason with ⟨-, hreturned⟩ | ⟨history, hbase, hevents, houtcome, hfirst, hreturned⟩
      · exact hreturned _
      · rw [hevents] at hmade houtcome ⊢
        intro hfails
        rcases (made_concat hbase).mp hfails with hearlier | ⟨hsame, -⟩
        · exact hreturned _ hearlier
        · rcases (made_concat hbase).mp hmade with hearlier | ⟨-, hreturns⟩
          · exact hfirst (hsame ▸ hearlier)
          · rw [houtcome] at hreturns
            cases hreturns
    exact ⟨hmoves.services, hmoves.m_services, hmoves.events, by rw [hmoves.m_statusFlags]; rfl,
      hmoves.status_cases hstopped, hmoves.withError, hmoves.detached, hmoves.stops, fun service hmade =>
        iff_of_true ((hmoves.initialized service hmade).resolve_left not_made_self)
          (hcalled service hmade)⟩
  · -- the service is not stopped by the stop that follows
    have hself : ((middle.called (.doInitialize service)).setStatus service .Stopped).status service =
        .Stopped := Function.update_self _ _ _
    have hothers : ∀ other ≠ service,
        ((middle.called (.doInitialize service)).setStatus service .Stopped).status other =
          middle.status other := fun other hne => Function.update_of_ne hne _ _
    have hbase : application.events <+: middle.events := h.moves.events
    have hmem : service ∈ application.m_services := by
      have hsplit : application.m_services = done ++ service :: rest := h.m_services
      rw [hsplit]
      simp
    refine ⟨h.moves.services, h.moves.m_services, hbase.trans (List.prefix_append _ _),
      by exact h.moves.m_statusFlags ▸ rfl, fun other => ?_, fun other hother => ?_,
      fun other hother => ?_, fun other => ?_, fun other hmade => ?_⟩
    · rcases Decidable.em (other = service) with rfl | hne
      · rw [hself]
        exact .inr rfl
      · rw [hothers other hne]
        exact h.status_cases hstopped other
    · rcases Decidable.em (other = service) with rfl | hne
      · rw [hself] at hother
        cases hother
      · rw [hothers other hne] at hother
        exact h.moves.withError other hother
    · rw [hothers other fun heq => hother (heq ▸ hmem)]
      exact h.moves.detached other hother
    · have hstops : middle.events.count (.doStop other) = application.events.count (.doStop other) :=
        h.moves.stops other
      simpa [Application.called, Application.setStatus, List.count_append] using hstops
    · have hevents : ((middle.called (.doInitialize service)).setStatus service .Stopped).events =
          middle.events ++ [.doInitialize service] := rfl
      rw [hevents] at hmade ⊢
      rcases Decidable.em (other = service) with rfl | hne
      · rw [hself]
        refine iff_of_false (by simp) fun hreturned => hreturned ?_
        exact (made_concat hbase).mpr (.inr ⟨rfl, houtcome⟩)
      · have hlast : Event.doInitialize service ≠ .doInitialize other := by simpa using Ne.symm hne
        rw [made_concat hbase] at hmade ⊢
        have hearlier := hmade.resolve_right fun hsame => hlast hsame.1
        rw [hothers other hne]
        refine iff_of_true ((h.running_iff hstopped other).mpr hearlier) ?_
        rintro (hfails | ⟨hsame, -⟩)
        · exact h.returned _ hfails
        · exact hlast hsame

end StartedUp

/-- What a start leaves when no second error spoils it. -/
structure Clean (outcome : List Event → Bool) (application after : Application) (fails : Bool)
    (thrown : Option Thrown) : Prop where
  m_statusFlags : after.m_statusFlags.isStopped = true
  stopped : ∀ service ∈ after.m_services, (after.status service).isStopped = true
  withError : after.m_statusFlags = .StoppedWithError ↔
    ∃ service, Made outcome application.events after.events (.doStop service) false
  serviceWithError : ∀ service, after.status service = .StoppedWithError →
    Made outcome application.events after.events (.doStop service) false ∨
      (application.status service = .StoppedWithError ∧
        ∀ returns, ¬ Made outcome application.events after.events (.doStop service) returns)
  serviceThrew : ∀ service,
    Made outcome application.events after.events (.doStop service) false →
      after.status service = .StoppedWithError
  once : ∀ service, Made outcome application.events after.events (.doInitialize service) true →
    after.events.count (.doStop service) = application.events.count (.doStop service) + 1
  rethrows : fails = true → thrown = some .original
  restarts : after.m_statusFlags ≠ .Running

/-- A start that throws stops services that do not throw, and no service that was called with success
throws when it is called again. -/
structure OneError (outcome : List Event → Bool) (application after : Application) (fails : Bool) :
    Prop where
  stops : fails = true →
    ∀ service, ¬ Made outcome application.events after.events (.doStop service) false
  again : ∀ service, Made outcome application.events after.events (.doInitialize service) true →
    ¬ Made outcome application.events after.events (.doInitialize service) false

section Clean

variable {outcome run : List Event → Bool} {application ended after : Application}
  {service fuel : Nat} {fails stops : Bool}

theorem startThrowing_startedUp (hflags : application.m_statusFlags ≠ .Running)
    (hnodup : application.m_services.Nodup)
    (hstopped : ∀ service, (application.status service).isStopped = true)
    (hfuel : application.m_services.length + application.m_services.length ≤ fuel) :
    ∃ fails ended, StartedUp outcome application ended ∧
      application.fails (.of outcome run) fuel = some fails ∧
      application.startThrowing (.of outcome run) fuel =
        some (ended.finish (.of outcome run) fails) := by
  obtain ⟨returns, ended, hended, hends⟩ := @startServices_ends outcome run _ _ hnodup hstopped hfuel
  have hstarted := started_eq hended
  rw [Application.fails, Application.startThrowing, if_neg hflags, hstarted]
  cases hends with
  | returns hall =>
    exact ⟨!(Behaviour.of outcome run).run { ended with m_statusFlags := .Running }, _,
      hall.startedUp hstopped, rfl, rfl⟩
  | throws hmiddle hfails =>
    exact ⟨true, ended, hmiddle.startedUp_of_fails hstopped hfails, rfl, rfl⟩

theorem StartedUp.made_iff (h : StartedUp outcome application ended)
    (hstops : Stops outcome ended after (ended.stopping ended.m_services) stops) (service : Nat)
    (returns : Bool) :
    (Made outcome application.events after.events (.doInitialize service) returns ↔
      Made outcome application.events ended.events (.doInitialize service) returns) ∧
    (Made outcome application.events after.events (.doStop service) returns ↔
      Made outcome ended.events after.events (.doStop service) returns) := by
  have hnever : ¬ Made outcome application.events ended.events (.doStop service) returns := by
    intro hmade
    have hlt := hmade.count_lt
    have heq := h.stops service
    omega
  have hother : ¬ Made outcome ended.events after.events (.doInitialize service) returns := by
    intro hmade
    rw [hstops.events] at hmade
    obtain ⟨stopped, -, heq⟩ := List.mem_map.mp hmade.mem
    cases heq
  rw [hstops.events] at hother ⊢
  rw [made_append h.events, made_append h.events]
  exact ⟨or_iff_left hother, or_iff_right hnever⟩

theorem StartedUp.once_iff (h : StartedUp outcome application ended)
    (hidle : ∀ service, (application.status service).isStopped = true)
    (hnodup : application.m_services.Nodup)
    (hstops : Stops outcome ended after (ended.stopping ended.m_services) stops) (service : Nat) :
    after.events.count (.doStop service) = application.events.count (.doStop service) + 1 ↔
      ended.status service = .Running := by
  rw [hstops.count (h.m_services ▸ hnodup) service, h.stops service]
  constructor
  · intro hcount
    split at hcount
    · next hcalled =>
      refine (h.status_cases service).resolve_right fun hstopped => ?_
      rw [hcalled.2] at hstopped
      cases hstopped
    · omega
  · intro hrunning
    have hmem : service ∈ ended.m_services := by
      rw [h.m_services]
      by_contra hdetached
      have hstopped := hidle service
      rw [← h.detached service hdetached, hrunning] at hstopped
      cases hstopped
    rw [if_pos ⟨hmem, by rw [hrunning]; rfl⟩]

theorem StartedUp.clean_iff (h : StartedUp outcome application ended)
    (hidle : ∀ service, (application.status service).isStopped = true)
    (hnodup : application.m_services.Nodup) (run : List Event → Bool) (fails : Bool) :
    Clean outcome application (ended.finish (.of outcome run) fails).2 fails
        (ended.finish (.of outcome run) fails).1 ↔
      OneError outcome application (ended.finish (.of outcome run) fails).2 fails := by
  have hstop : ∃ stops after, Stops outcome ended after (ended.stopping ended.m_services) stops ∧
      ended.stop (.of outcome run) = (stops, { after with
        m_statusFlags := if stops then .Stopped else .StoppedWithError }) :=
    stop_stops (h.m_services ▸ hnodup) h.m_statusFlags
  obtain ⟨stops, after, hstops, hstop⟩ := hstop
  have hinitialized (service : Nat) (returns : Bool) := (h.made_iff hstops service returns).1
  have hstopped (service : Nat) (returns : Bool) := (h.made_iff hstops service returns).2
  rw [Application.finish, hstop]
  constructor
  · intro hclean
    refine ⟨fun hfails service hmade => ?_, fun service hmade => ?_⟩
    · have hthrows : stops = false := hstops.throws.mpr ⟨service, (hstopped service false).mp hmade⟩
      have hthrown := hclean.rethrows hfails
      rw [hthrows] at hthrown
      cases hthrown
    · have hrunning := (h.once_iff hidle hnodup hstops service).mp (hclean.once service hmade)
      exact fun hthrows => (h.running service ((hinitialized service true).mp hmade)).mp hrunning
        ((hinitialized service false).mp hthrows)
  · intro hone
    have hthrows : stops = false ↔
        ∃ service, Made outcome application.events after.events (.doStop service) false := by
      rw [hstops.throws]
      exact exists_congr fun service => (hstopped service false).symm
    refine ⟨?_, fun service hmem => ?_, ?_, fun service hwithError => ?_, fun service hmade => ?_,
      fun service hmade => ?_, fun hfails => ?_, ?_⟩
    · cases stops <;> rfl
    · exact hstops.isStopped (hstops.m_services ▸ hmem)
    · rw [← hthrows]
      cases stops <;> simp
    · rcases (hstops.withError_iff service).mp hwithError with hmade | hbefore
      · exact .inl ((hstopped service false).mpr hmade)
      · refine .inr ⟨h.withError service hbefore, fun returns hmade => ?_⟩
        have hcalled := (hstops.mem ((hstopped service returns).mp hmade)).2
        rw [hbefore] at hcalled
        cases hcalled
    · exact (hstops.withError_iff service).mpr (.inl ((hstopped service false).mp hmade))
    · refine (h.once_iff hidle hnodup hstops service).mpr ?_
      have hreturned := mt (hinitialized service false).mpr (hone.again service hmade)
      exact (h.running service ((hinitialized service true).mp hmade)).mpr hreturned
    · have hreturns : stops = true := by
        cases stops with
        | true => rfl
        | false =>
          obtain ⟨service, hmade⟩ := hthrows.mp rfl
          exact absurd hmade (hone.stops hfails service)
      simp [hreturns, hfails]
    · cases stops <;> simp

theorem StartedUp.idle (h : StartedUp outcome application ended)
    (hidle : ∀ service, (application.status service).isStopped = true)
    (hnodup : application.m_services.Nodup) (run : List Event → Bool) (fails : Bool) :
    ∃ (failed : Bool) (withError : Nat → Bool), (ended.finish (.of outcome run) fails).2 =
      { application with
        m_statusFlags := if failed then .StoppedWithError else .Stopped
        status := fun service => if withError service then .StoppedWithError else .Stopped
        events := (ended.finish (.of outcome run) fails).2.events } := by
  have hstop : ∃ stops after, Stops outcome ended after (ended.stopping ended.m_services) stops ∧
      ended.stop (.of outcome run) = (stops, { after with
        m_statusFlags := if stops then .Stopped else .StoppedWithError }) :=
    stop_stops (h.m_services ▸ hnodup) h.m_statusFlags
  obtain ⟨stops, after, hstops, hstop⟩ := hstop
  have hstopped (service : Nat) : (after.status service).isStopped = true := by
    rcases Decidable.em (service ∈ ended.m_services) with hmem | hdetached
    · exact hstops.isStopped hmem
    · have hskip : service ∉ ended.stopping ended.m_services := fun hcalled =>
        hdetached (Application.mem_stopping.mp hcalled).1
      rw [hstops.unchanged service hskip, h.detached service (h.m_services ▸ hdetached)]
      exact hidle service
  have hstatus : after.status = fun service =>
      if decide (after.status service = .StoppedWithError) then .StoppedWithError else .Stopped := by
    funext service
    have hservice := hstopped service
    cases hcase : after.status service <;> rw [hcase] at hservice <;> first | rfl | cases hservice
  rw [Application.finish, hstop]
  refine ⟨!stops, fun service => decide (after.status service = .StoppedWithError), ?_⟩
  rw [← hstatus, ← h.services, ← h.m_services, ← hstops.services, ← hstops.m_services]
  cases stops <;> rfl

/-- Every stop is clean. Every start is clean just when no second error spoils it, and leaves a state
in which a start can begin. -/
theorem clean_iff_oneError (outcome run : List Event → Bool) (services : Nat → Service)
    (attached : List Nat) :
    (∀ m_statusFlags status events, m_statusFlags.isStopped = false →
      let application := { attached.foldl Application.register (.instantiate services) with
        m_statusFlags, status, events }
      Halted outcome application (application.stop (.of outcome run)).2
        (application.stop (.of outcome run)).1) ∧
    ∀ failed withError events, ∃ enough, ∀ fuel, enough ≤ fuel → ∃ fails thrown after,
      let application := idle services attached failed withError events
      application.fails (.of outcome run) fuel = some fails ∧
      application.startThrowing (.of outcome run) fuel = some (thrown, after) ∧
      (∃ failed withError, after = idle services attached failed withError after.events) ∧
      (Clean outcome application after fails thrown ↔ OneError outcome application after fails) := by
  constructor
  · intro m_statusFlags status events hflags
    exact stop_halted (idle_nodup services attached false (fun _ => false) events) hflags
  · intro failed withError events
    have hstopped := idle_stopped services attached failed withError events
    have hnodup := idle_nodup services attached failed withError events
    have hflags : (idle services attached failed withError events).m_statusFlags ≠ .Running := by
      cases failed <;> simp [idle]
    refine ⟨(idle services attached failed withError events).m_services.length +
      (idle services attached failed withError events).m_services.length, fun fuel hfuel => ?_⟩
    obtain ⟨fails, ended, hended, hfails, hthrown⟩ :=
      @startThrowing_startedUp outcome run _ _ hflags hnodup hstopped hfuel
    exact ⟨fails, _, _, hfails, hthrown, hended.idle hstopped hnodup run fails,
      hended.clean_iff hstopped hnodup run fails⟩

end Clean

section Examples

def oneService : Application :=
  idle (fun _ => ⟨.Database, text "sqlite", []⟩) [0] false (fun _ => false) []

def twoServices : Application := idle logBehind [0, 1] false (fun _ => false) []

def stopsThrow (events : List Event) : Bool :=
  match events.getLast? with
  | some (.doStop _) => false
  | _ => true

def secondThrows (events : List Event) : Bool :=
  events ≠ [.doInitialize 1, .doInitialize 0, .doInitialize 1]

/-- The exception of `do_stop` takes the place of that of `run`. A service that was called as a
requirement, and throws when it is called again, is never called by the stop. -/
theorem not_clean :
    (∃ after, oneService.fails (.of stopsThrow fun _ => false) 2 = some true ∧
      oneService.startThrowing (.of stopsThrow fun _ => false) 2 = some (some .stop, after) ∧
      ¬ Clean stopsThrow oneService after true (some .stop)) ∧
    ∃ after, twoServices.fails (.of secondThrows fun _ => true) 4 = some true ∧
      twoServices.startThrowing (.of secondThrows fun _ => true) 4 =
        some (some .original, after) ∧
      ¬ Clean secondThrows twoServices after true (some .original) := by
  constructor
  · have hthrown : (oneService.startThrowing (.of stopsThrow fun _ => false) 2).map (·.1) =
        some (some .stop) := by decide +kernel
    obtain ⟨⟨thrown, after⟩, hstart, rfl⟩ := Option.map_eq_some_iff.mp hthrown
    refine ⟨after, by decide +kernel, hstart, fun hclean => ?_⟩
    cases hclean.rethrows rfl
  · have hthrown : (twoServices.startThrowing (.of secondThrows fun _ => true) 4).map
        (fun ended => (ended.1, ended.2.events)) = some (some .original,
          [.doInitialize 1, .doInitialize 0, .doInitialize 1, .doStop 0]) := by decide +kernel
    obtain ⟨⟨thrown, after⟩, hstart, hended⟩ := Option.map_eq_some_iff.mp hthrown
    obtain ⟨rfl, hevents⟩ := Prod.mk.inj hended
    simp only at hevents
    refine ⟨after, by decide +kernel, hstart, fun hclean => ?_⟩
    have hmade : Made secondThrows twoServices.events after.events (.doInitialize 1) true := by
      rw [hevents]
      exact ⟨[], List.prefix_refl _, ⟨[.doInitialize 0, .doInitialize 1, .doStop 0], rfl⟩,
        by decide⟩
    have honce := hclean.once 1 hmade
    rw [hevents] at honce
    exact absurd honce (by decide +kernel)

end Examples

end Coffee.App
