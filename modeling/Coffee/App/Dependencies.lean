import Coffee.App.StartOnce
import Coffee.Library.Dependency

/-! # Requirements and their order

The start-up is a depth-first search along the requirements. The services that are starting are the
path to the one that is started now, so a requirement that leads to one of them closes a cycle.
-/

namespace Coffee.App

open Coffee.Basis Coffee.Library Library.Dependency Relation

/-- Virtual methods that attach nothing. What a call does is a matter of the calls made so far, of
which it is the last. -/
def Behaviour.of (outcome run : List Event → Bool) : Behaviour where
  doInitialize application _ := ([], outcome application.events)
  doStop application _ := outcome application.events
  run application := run application.events

def Application.needs (application : Application) (service : Nat) : List (Option Nat) :=
  (application.services service).m_requirements.map fun requirement =>
    application.select requirement.m_feature requirement.m_implementation

theorem Application.select_mem {application : Application} {feature : Feature}
    {implementation : Bytes} {selection : Nat}
    (h : application.select feature implementation = some selection) :
    selection ∈ application.m_services := by
  rw [Application.select] at h
  split at h
  · exact (List.mem_filter.mp (List.mem_of_find?_eq_some h)).1
  · exact (List.mem_filter.mp (List.mem_of_head? h)).1

/-- Attached services before the first start or behind a stop. -/
def idle (services : Nat → Service) (attached : List Nat) (failed : Bool) (withError : Nat → Bool)
    (events : List Event) : Application :=
  { attached.foldl Application.register (.instantiate services) with
    m_statusFlags := if failed then .StoppedWithError else .Stopped
    status := fun service => if withError service then .StoppedWithError else .Stopped
    events }

/-- A call was made behind `base`, and it returned or threw. -/
def Made (outcome : List Event → Bool) (base events : List Event) (event : Event)
    (returns : Bool) : Prop :=
  ∃ history, base <+: history ∧ history ++ [event] <+: events ∧
    outcome (history ++ [event]) = returns

section Made

variable {outcome : List Event → Bool} {base events after : List Event} {event last : Event}
  {returns : Bool}

theorem not_made_self : ¬ Made outcome base base event returns := by
  rintro ⟨history, hbase, hhistory, -⟩
  have hle := hbase.length_le
  have hlt := hhistory.length_le
  rw [List.length_append, List.length_singleton] at hlt
  omega

theorem Made.mono (h : Made outcome base events event returns) (hevents : events <+: after) :
    Made outcome base after event returns := by
  obtain ⟨history, hbase, hhistory, houtcome⟩ := h
  exact ⟨history, hbase, hhistory.trans hevents, houtcome⟩

theorem made_concat (hbase : base <+: events) : Made outcome base (events ++ [last]) event returns ↔
    Made outcome base events event returns ∨
      last = event ∧ outcome (events ++ [last]) = returns := by
  constructor
  · rintro ⟨history, hbase, hhistory, houtcome⟩
    rcases List.prefix_concat_iff.mp hhistory with hsame | hearlier
    · obtain ⟨rfl, hlast⟩ := List.append_inj' hsame rfl
      obtain rfl := List.singleton_inj.mp hlast
      exact .inr ⟨rfl, houtcome⟩
    · exact .inl ⟨history, hbase, hearlier, houtcome⟩
  · rintro (h | ⟨rfl, houtcome⟩)
    · exact h.mono (List.prefix_append events [last])
    · exact ⟨events, hbase, List.prefix_refl _, houtcome⟩

end Made

/-- What the start of a stopped service can change: nothing about the services that are running or
starting. The services that get running are those whose `doInitialize` returned. -/
structure Moves (outcome : List Event → Bool) (base : List Event)
    (application after : Application) : Prop where
  m_statusFlags : after.m_statusFlags = application.m_statusFlags
  services : after.services = application.services
  m_services : after.m_services = application.m_services
  events : application.events <+: after.events
  busy : ∀ service, (application.status service).isStopped = false →
    after.status service = application.status service
  starting : ∀ service, after.status service = .Starting ↔ application.status service = .Starting
  initialized : ∀ service, Made outcome base after.events (.doInitialize service) true →
    Made outcome base application.events (.doInitialize service) true ∨
      after.status service = .Running
  running : ∀ service, after.status service = .Running → application.status service = .Running ∨
    Made outcome base after.events (.doInitialize service) true
  withError : ∀ service, after.status service = .StoppedWithError →
    application.status service = .StoppedWithError
  detached : ∀ service ∉ application.m_services, after.status service = application.status service
  stops : ∀ service, after.events.count (.doStop service) =
    application.events.count (.doStop service)

namespace Moves

variable {outcome : List Event → Bool} {base : List Event} {application middle after : Application}

theorem refl (application : Application) : Moves outcome base application application :=
  ⟨rfl, rfl, rfl, List.prefix_refl _, fun _ _ => rfl, fun _ => Iff.rfl, fun _ => .inl, fun _ => .inl,
    fun _ => id, fun _ _ => rfl, fun _ => rfl⟩

theorem trans (h : Moves outcome base application middle) (h' : Moves outcome base middle after) :
    Moves outcome base application after where
  m_statusFlags := h'.m_statusFlags.trans h.m_statusFlags
  services := h'.services.trans h.services
  m_services := h'.m_services.trans h.m_services
  events := h.events.trans h'.events
  busy service hbusy := by
    have hsame := h.busy service hbusy
    exact (h'.busy service (hsame ▸ hbusy)).trans hsame
  starting service := (h'.starting service).trans (h.starting service)
  initialized service hmade := by
    rcases h'.initialized service hmade with hmade | hrunning
    · rcases h.initialized service hmade with hmade | hrunning
      · exact .inl hmade
      · exact .inr ((h'.busy service (by rw [hrunning]; rfl)).trans hrunning)
    · exact .inr hrunning
  running service hrunning := by
    rcases h'.running service hrunning with hrunning | hmade
    · exact (h.running service hrunning).imp_right fun hmade => hmade.mono h'.events
    · exact .inr hmade
  withError service hwithError := h.withError service (h'.withError service hwithError)
  detached service hservice :=
    (h'.detached service (h.m_services ▸ hservice)).trans (h.detached service hservice)
  stops service := (h'.stops service).trans (h.stops service)

theorem select (h : Moves outcome base application after) (feature : Feature)
    (implementation : Bytes) :
    after.select feature implementation = application.select feature implementation := by
  have hfeature : after.feature = application.feature := by
    funext service
    rw [Application.feature, Application.feature, h.services]
  rw [Application.select, Application.select, h.m_services, h.services, hfeature]

theorem needs (h : Moves outcome base application after) : after.needs = application.needs := by
  funext service
  rw [Application.needs, Application.needs, h.services]
  exact List.map_congr_left fun requirement _ => h.select _ _

/-- The service that was starting is running or stopped now. -/
theorem settle {service : Nat} {status : Status} {events : List Event}
    (h : Moves outcome base (application.setStatus service .Starting) middle)
    (hmem : service ∈ application.m_services)
    (hstopped : (application.status service).isStopped = true)
    (hstatus : status = .Running ∨ status = .Stopped)
    (hevents : middle.events <+: events)
    (hmade : ∀ other, Made outcome base events (.doInitialize other) true →
      Made outcome base middle.events (.doInitialize other) true ∨
        other = service ∧ status = .Running)
    (hrunning : status = .Running → Made outcome base events (.doInitialize service) true)
    (hstops : ∀ other, events.count (.doStop other) = middle.events.count (.doStop other)) :
    Moves outcome base application ({ middle with events }.setStatus service status) where
  m_statusFlags := h.m_statusFlags
  services := h.services
  m_services := h.m_services
  events := h.events.trans hevents
  busy other hbusy := by
    have hne : other ≠ service := by
      rintro rfl
      rw [hstopped] at hbusy
      cases hbusy
    have hsame := h.busy other
    simp only [Application.setStatus, Function.update_of_ne hne] at hsame ⊢
    exact hsame hbusy
  starting other := by
    rcases Decidable.em (other = service) with rfl | hne
    · refine iff_of_false ?_ fun hstarting => ?_
      · rcases hstatus with rfl | rfl <;> simp [Application.setStatus]
      · rw [hstarting] at hstopped
        cases hstopped
    · have hiff := h.starting other
      simp only [Application.setStatus, Function.update_of_ne hne] at hiff ⊢
      exact hiff
  initialized other hother := by
    rcases hmade other hother with hearlier | ⟨rfl, rfl⟩
    · have hinitialized := h.initialized other hearlier
      rcases Decidable.em (other = service) with rfl | hne
      · have hstarting : middle.status other = .Starting := by
          rw [h.starting]
          exact Function.update_self _ _ _
        rw [hstarting] at hinitialized
        exact .inl (hinitialized.resolve_right (by simp))
      · simp only [Application.setStatus, Function.update_of_ne hne] at hinitialized ⊢
        exact hinitialized
    · exact .inr (Function.update_self _ _ _)
  running other hother := by
    rcases Decidable.em (other = service) with rfl | hne
    · exact .inr (hrunning ((Function.update_self _ _ _).symm.trans hother))
    · have hran := h.running other
      simp only [Application.setStatus, Function.update_of_ne hne] at hran hother ⊢
      exact (hran hother).imp_right fun hmade => hmade.mono hevents
  withError other hother := by
    rcases Decidable.em (other = service) with rfl | hne
    · have hsame : status = .StoppedWithError := (Function.update_self _ _ _).symm.trans hother
      rcases hstatus with rfl | rfl <;> cases hsame
    · have hwithError := h.withError other
      simp only [Application.setStatus, Function.update_of_ne hne] at hwithError hother
      exact hwithError hother
  detached other hother := by
    have hne : other ≠ service := by
      rintro rfl
      exact hother hmem
    have hsame := h.detached other hother
    simp only [Application.setStatus, Function.update_of_ne hne] at hsame ⊢
    exact hsame
  stops other := (hstops other).trans (h.stops other)

end Moves

section Service

variable {outcome run : List Event → Bool} {base : List Event} {application after : Application}
  {service selection : Nat} {requirement : Requirement} {fuel : Nat} {returns : Bool}

theorem forEach_cons_eq_some {α : Type} {body : Application → α → Result} {a : α} {as : List α}
    (h : forEach body application (a :: as) = some (returns, after)) :
    (body application a = some (false, after) ∧ returns = false) ∨
      ∃ middle, body application a = some (true, middle) ∧
        forEach body middle as = some (returns, after) := by
  rw [forEach] at h
  rcases hbody : body application a with _ | ⟨_ | _, middle⟩
  · rw [hbody] at h
    cases h
  · rw [hbody] at h
    obtain ⟨rfl, rfl⟩ := Prod.mk.inj (Option.some.inj h)
    exact .inl ⟨rfl, rfl⟩
  · rw [hbody] at h
    exact .inr ⟨middle, rfl, h⟩

/-- How the start of a service ends. -/
theorem startService_steps
    (h : application.startService (.of outcome run) (fuel + 1) service = some (returns, after)) :
    ∃ required ready, forEach (Application.satisfy (Application.startService (.of outcome run) fuel))
        (application.setStatus service .Starting) (application.services service).m_requirements =
          some (required, ready) ∧
      ((required = false ∧ returns = false ∧ after = ready.setStatus service .Stopped) ∨
        (required = true ∧ returns = outcome (ready.events ++ [.doInitialize service]) ∧
          after = (ready.called (.doInitialize service)).setStatus service
            (if returns then .Running else .Stopped))) := by
  obtain ⟨middle, hmiddle, rfl⟩ := startService_cases h
  rcases hrequired : forEach (Application.satisfy (Application.startService (.of outcome run) fuel))
      (application.setStatus service .Starting) (application.services service).m_requirements with
    _ | ⟨_ | _, ready⟩
  · rw [hrequired] at hmiddle
    cases hmiddle
  · rw [hrequired] at hmiddle
    obtain ⟨rfl, rfl⟩ := Prod.mk.inj (Option.some.inj hmiddle)
    exact ⟨false, ready, rfl, .inl ⟨rfl, rfl, rfl⟩⟩
  · rw [hrequired] at hmiddle
    obtain ⟨rfl, rfl⟩ := Prod.mk.inj (Option.some.inj hmiddle)
    exact ⟨true, ready, rfl, .inr ⟨rfl, rfl, rfl⟩⟩

/-- How the satisfaction of a requirement ends. -/
theorem satisfy_steps {start : Application → Nat → Result}
    (h : application.satisfy start requirement = some (returns, after)) :
    (application.select requirement.m_feature requirement.m_implementation = none ∧
      returns = false ∧ after = application) ∨
    ∃ selection, application.select requirement.m_feature requirement.m_implementation =
        some selection ∧
      ((application.status selection = .Running ∧ returns = true ∧ after = application) ∨
        (application.status selection = .Starting ∧ returns = false ∧ after = application) ∨
        ((application.status selection).isStopped = true ∧
          start application selection = some (returns, after))) := by
  rw [Application.satisfy] at h
  cases hselect : application.select requirement.m_feature requirement.m_implementation with
  | none =>
    rw [hselect] at h
    obtain ⟨rfl, rfl⟩ := Prod.mk.inj (Option.some.inj h)
    exact .inl ⟨rfl, rfl, rfl⟩
  | some selection =>
    refine .inr ⟨selection, rfl, ?_⟩
    simp only [hselect] at h
    cases hstatus : application.status selection <;> simp only [hstatus] at h
    case Running =>
      obtain ⟨rfl, rfl⟩ := Prod.mk.inj (Option.some.inj h)
      exact .inl ⟨rfl, rfl, rfl⟩
    case Starting =>
      obtain ⟨rfl, rfl⟩ := Prod.mk.inj (Option.some.inj h)
      exact .inr (.inl ⟨rfl, rfl, rfl⟩)
    case Stopped => exact .inr (.inr ⟨rfl, h⟩)
    case StoppedWithError => exact .inr (.inr ⟨rfl, h⟩)

/-- What the start of stopped services preserves is preserved along requirements. `P` may depend on
whether the last call returned. -/
theorem requirements_induction {start : Application → Nat → Result} {P : Bool → Application → Prop}
    (hreturns : ∀ application returns, P true application → P returns application)
    (hstart : ∀ application service returns after, P true application →
      service ∈ application.m_services → (application.status service).isStopped = true →
        start application service = some (returns, after) → P returns after)
    {requirements : List Requirement} (hP : P true application)
    (h : forEach (Application.satisfy start) application requirements = some (returns, after)) :
    P returns after := by
  induction requirements generalizing application with
  | nil =>
    obtain ⟨rfl, rfl⟩ := Prod.mk.inj (Option.some.inj h)
    exact hP
  | cons requirement requirements ih =>
    have hsatisfy : ∀ returns middle,
        application.satisfy start requirement = some (returns, middle) → P returns middle := by
      intro returns middle hmiddle
      rcases satisfy_steps hmiddle with
        ⟨-, -, rfl⟩ | ⟨selection, hselect, ⟨-, -, rfl⟩ | ⟨-, -, rfl⟩ | ⟨hstopped, hstarted⟩⟩
      · exact hreturns _ _ hP
      · exact hreturns _ _ hP
      · exact hreturns _ _ hP
      · exact hstart application selection returns middle hP (Application.select_mem hselect)
          hstopped hstarted
    rcases forEach_cons_eq_some h with ⟨hfails, rfl⟩ | ⟨middle, hmiddle, hrest⟩
    · exact hsatisfy false after hfails
    · exact ih (hsatisfy true middle hmiddle) hrest

theorem moves_induction {start : Application → Nat → Result}
    (hstart : ∀ application service returns after, base <+: application.events →
      service ∈ application.m_services → (application.status service).isStopped = true →
      start application service = some (returns, after) → Moves outcome base application after)
    {requirements : List Requirement} (hbase : base <+: application.events)
    (h : forEach (Application.satisfy start) application requirements = some (returns, after)) :
    Moves outcome base application after := by
  have hstep : ∀ middle service returns after, Moves outcome base application middle →
      service ∈ middle.m_services → (middle.status service).isStopped = true →
        start middle service = some (returns, after) → Moves outcome base application after :=
    fun middle service returns after hmoves hmem hstopped hstarted => hmoves.trans
      (hstart middle service returns after (hbase.trans hmoves.events) hmem hstopped hstarted)
  exact requirements_induction (P := fun _ after => Moves outcome base application after)
    (fun _ _ => id) hstep (Moves.refl application) h

theorem startService_moves (hbase : base <+: application.events)
    (hmem : service ∈ application.m_services)
    (hstopped : (application.status service).isStopped = true)
    (h : application.startService (.of outcome run) fuel service = some (returns, after)) :
    Moves outcome base application after ∧
      after.status service = if returns then .Running else .Stopped := by
  induction fuel generalizing application service returns after with
  | zero => cases h
  | succ fuel ih =>
    obtain ⟨required, ready, hready, hcases⟩ := startService_steps h
    have hmoves : Moves outcome base (application.setStatus service .Starting) ready :=
      moves_induction (fun _ _ _ _ hbase hmem hstopped hstarted =>
        (ih hbase hmem hstopped hstarted).1) hbase hready
    rcases hcases with ⟨-, rfl, rfl⟩ | ⟨-, houtcome, rfl⟩
    · exact ⟨hmoves.settle hmem hstopped (.inr rfl) (List.prefix_refl _) (fun _ => .inl) (by simp)
        fun _ => rfl, Function.update_self _ _ _⟩
    · refine ⟨hmoves.settle hmem hstopped ?_ (List.prefix_append _ _) ?_ ?_ ?_, Function.update_self _ _ _⟩
      · cases returns <;> simp
      · intro other hother
        rcases (made_concat (hbase.trans hmoves.events)).mp hother with hearlier | ⟨hsame, htrue⟩
        · exact .inl hearlier
        · obtain rfl := Event.doInitialize.inj hsame
          rw [houtcome, htrue]
          exact .inr ⟨rfl, rfl⟩
      · intro hrunning
        have htrue : returns = true := by
          cases returns with
          | false => cases hrunning
          | true => rfl
        exact (made_concat (hbase.trans hmoves.events)).mpr (.inr ⟨rfl, houtcome.symm.trans htrue⟩)
      · intro other
        simp [List.count_append]

theorem requirements_moves {requirements : List Requirement} (hbase : base <+: application.events)
    (h : forEach (Application.satisfy (Application.startService (.of outcome run) fuel)) application
      requirements = some (returns, after)) : Moves outcome base application after :=
  moves_induction (fun _ _ _ _ hbase hmem hstopped hstarted =>
    (startService_moves hbase hmem hstopped hstarted).1) hbase h

/-- Requirements that are satisfied are running. -/
theorem requirements_running {requirements : List Requirement}
    (h : forEach (Application.satisfy (Application.startService (.of outcome run) fuel)) application
      requirements = some (true, after)) :
    ∀ requirement ∈ requirements, ∃ selection,
      after.select requirement.m_feature requirement.m_implementation = some selection ∧
        after.status selection = .Running := by
  induction requirements generalizing application with
  | nil => exact List.forall_mem_nil _
  | cons requirement requirements ih =>
    rcases forEach_cons_eq_some h with ⟨-, hfalse⟩ | ⟨middle, hmiddle, hrest⟩
    · cases hfalse
    · refine List.forall_mem_cons.mpr ⟨?_, ih hrest⟩
      have hmoves : Moves outcome middle.events middle after :=
        requirements_moves (List.prefix_refl _) hrest
      rcases satisfy_steps hmiddle with ⟨-, hfalse, -⟩ | ⟨selection, hselect, hsteps⟩
      · cases hfalse
      · have hmiddle : middle.select requirement.m_feature requirement.m_implementation =
            some selection ∧ middle.status selection = .Running := by
          rcases hsteps with ⟨hrunning, -, rfl⟩ | ⟨-, hfalse, -⟩ | ⟨hstopped, hstarted⟩
          · exact ⟨hselect, hrunning⟩
          · cases hfalse
          · obtain ⟨hmoves, hrunning⟩ :=
              startService_moves (List.prefix_refl application.events)
                (Application.select_mem hselect) hstopped hstarted
            exact ⟨(hmoves.select _ _).trans hselect, hrunning⟩
        refine ⟨selection, (hmoves.select _ _).trans hmiddle.1, ?_⟩
        exact (hmoves.busy selection (by rw [hmiddle.2]; rfl)).trans hmiddle.2

end Service

/-- A call of `doInitialize` that the start of a service makes, in the state behind it. -/
inductive Calls (behaviour : Behaviour) : Nat → Application → Nat → Application → Nat → Prop
  | own {fuel : Nat} {application ready : Application} {service : Nat}
      (h : forEach (Application.satisfy (Application.startService behaviour fuel))
        (application.setStatus service .Starting) (application.services service).m_requirements =
          some (true, ready)) :
      Calls behaviour (fuel + 1) application service (ready.called (.doInitialize service)) service
  | required {fuel : Nat} {application middle calling : Application}
      {service selection other : Nat} {before behind : List Requirement} {requirement : Requirement}
      (hrequirements : (application.services service).m_requirements =
        before ++ requirement :: behind)
      (hbefore : forEach (Application.satisfy (Application.startService behaviour fuel))
        (application.setStatus service .Starting) before = some (true, middle))
      (hselect : middle.select requirement.m_feature requirement.m_implementation = some selection)
      (hstopped : (middle.status selection).isStopped = true)
      (h : Calls behaviour fuel middle selection calling other) :
      Calls behaviour (fuel + 1) application service calling other

/-- A call of `doInitialize` that the loop of `startServices` makes, in the state behind it. -/
inductive LoopCalls (behaviour : Behaviour) :
    Nat → Application → Option Nat → Application → Nat → Prop
  | turn {fuel : Nat} {application calling : Application} {service other : Nat}
      (h : Calls behaviour fuel application service calling other) :
      LoopCalls behaviour (fuel + 1) application (some service) calling other
  | later {fuel : Nat} {application after calling : Application} {service other : Nat}
      (hturn : application.startService behaviour fuel service = some (true, after))
      (h : LoopCalls behaviour fuel after (after.next service) calling other) :
      LoopCalls behaviour (fuel + 1) application (some service) calling other

section Calls

variable {outcome run : List Event → Bool} {application after calling : Application}
  {service other fuel : Nat} {returns : Bool} {history : List Event} {event : Event}

/-- A service is only called when the services selected for its requirements run. -/
theorem Calls.requirementsRunning (h : Calls (.of outcome run) fuel application service calling other) :
    RequirementsRunning calling other := by
  induction h with
  | @own fuel application ready service hready =>
    intro requirement hrequirement selection hselection
    have hmoves : Moves outcome application.events (application.setStatus service .Starting) ready :=
      requirements_moves (List.prefix_refl _) hready
    have hservices : ready.services = application.services := hmoves.services
    obtain ⟨running, hselect, hrunning⟩ := requirements_running hready requirement (by
      rw [← hservices]
      exact hrequirement)
    obtain rfl := Option.some.inj (hselect.symm.trans hselection)
    exact hrunning
  | required _ _ _ _ _ ih => exact ih

theorem LoopCalls.requirementsRunning {iterator : Option Nat}
    (h : LoopCalls (.of outcome run) fuel application iterator calling other) :
    RequirementsRunning calling other := by
  induction h with
  | turn h => exact h.requirementsRunning
  | later _ _ ih => exact ih

theorem startService_events
    (h : application.startService (.of outcome run) fuel service = some (returns, after)) :
    application.events <+: after.events := by
  cases fuel with
  | zero => cases h
  | succ fuel =>
    obtain ⟨required, ready, hready, hcases⟩ := startService_steps h
    have hmoves : Moves outcome application.events (application.setStatus service .Starting) ready :=
      requirements_moves (List.prefix_refl _) hready
    rcases hcases with ⟨-, -, rfl⟩ | ⟨-, -, rfl⟩
    · exact hmoves.events
    · exact hmoves.events.trans (List.prefix_append _ _)

theorem not_between {events : List Event} (hfirst : events <+: history)
    (hlast : history ++ [event] <+: events) : False := by
  have hle := hfirst.length_le
  have hlt := hlast.length_le
  rw [List.length_append, List.length_singleton] at hlt
  omega

theorem prefix_concat_cases {events last : List Event} (hevents : events <+: last)
    (hlast : history ++ [event] <+: last) : history ++ [event] <+: events ∨ events <+: history := by
  rcases List.prefix_or_prefix_of_prefix hevents hlast with hbefore | hbehind
  · rcases List.prefix_concat_iff.mp hbefore with rfl | hbefore
    · exact .inl (List.prefix_refl _)
    · exact .inr hbefore
  · exact .inl hbehind

theorem requirements_calls {requirements : List Requirement}
    (h : forEach (Application.satisfy (Application.startService (.of outcome run) fuel)) application
      requirements = some (returns, after))
    (hfirst : application.events <+: history) (hlast : history ++ [event] <+: after.events) :
    ∃ before requirement behind middle selection returns' after',
      requirements = before ++ requirement :: behind ∧
      forEach (Application.satisfy (Application.startService (.of outcome run) fuel)) application
        before = some (true, middle) ∧
      middle.select requirement.m_feature requirement.m_implementation = some selection ∧
      (middle.status selection).isStopped = true ∧
      middle.startService (.of outcome run) fuel selection = some (returns', after') ∧
      middle.events <+: history ∧ history ++ [event] <+: after'.events := by
  induction requirements generalizing application with
  | nil =>
    obtain ⟨-, rfl⟩ := Prod.mk.inj (Option.some.inj h)
    exact (not_between hfirst hlast).elim
  | cons requirement requirements ih =>
    -- the call was made for the first requirement
    have hhere : ∀ {returns' middle}, application.satisfy
        (Application.startService (.of outcome run) fuel) requirement = some (returns', middle) →
        history ++ [event] <+: middle.events → ∃ before requirement' behind middle selection returns'
          after', requirement :: requirements = before ++ requirement' :: behind ∧
          forEach (Application.satisfy (Application.startService (.of outcome run) fuel)) application
            before = some (true, middle) ∧
          middle.select requirement'.m_feature requirement'.m_implementation = some selection ∧
          (middle.status selection).isStopped = true ∧
          middle.startService (.of outcome run) fuel selection = some (returns', after') ∧
          middle.events <+: history ∧ history ++ [event] <+: after'.events := by
      intro returns' middle hsatisfy hmiddle
      rcases satisfy_steps hsatisfy with
        ⟨-, -, rfl⟩ | ⟨selection, hselect, ⟨-, -, rfl⟩ | ⟨-, -, rfl⟩ | ⟨hstopped, hstarted⟩⟩
      · exact (not_between hfirst hmiddle).elim
      · exact (not_between hfirst hmiddle).elim
      · exact (not_between hfirst hmiddle).elim
      · exact ⟨[], requirement, requirements, application, selection, returns', middle, rfl, rfl,
          hselect, hstopped, hstarted, hfirst, hmiddle⟩
    rcases forEach_cons_eq_some h with ⟨hfails, -⟩ | ⟨middle, hmiddle, hrest⟩
    · exact hhere hfails hlast
    · have hmoves : Moves outcome middle.events middle after :=
        requirements_moves (List.prefix_refl _) hrest
      rcases prefix_concat_cases hmoves.events hlast with hearlier | hlater
      · exact hhere hmiddle hearlier
      · obtain ⟨before, requirement', behind, middle', selection, returns', after', rfl, hbefore,
          hcall⟩ := ih hrest hlater
        refine ⟨requirement :: before, requirement', behind, middle', selection, returns', after', rfl,
          ?_, hcall⟩
        rw [forEach, hmiddle]
        exact hbefore

/-- No call is made but those that `Calls` lists. -/
theorem startService_calls
    (h : application.startService (.of outcome run) fuel service = some (returns, after))
    (hfirst : application.events <+: history)
    (hlast : history ++ [.doInitialize other] <+: after.events) :
    ∃ calling, Calls (.of outcome run) fuel application service calling other ∧
      calling.events = history ++ [.doInitialize other] := by
  induction fuel generalizing application service returns after with
  | zero => cases h
  | succ fuel ih =>
    obtain ⟨required, ready, hready, hcases⟩ := startService_steps h
    have hrequired : history ++ [.doInitialize other] <+: ready.events →
        ∃ calling, Calls (.of outcome run) (fuel + 1) application service calling other ∧
          calling.events = history ++ [.doInitialize other] := by
      intro hlast
      obtain ⟨before, requirement, behind, middle, selection, returns', after', hsplit, hbefore,
        hselect, hstopped, hstarted, hmiddle, hcall⟩ := requirements_calls hready hfirst hlast
      obtain ⟨calling, hcalls, hevents⟩ := ih hstarted hmiddle hcall
      exact ⟨calling, .required hsplit hbefore hselect hstopped hcalls, hevents⟩
    rcases hcases with ⟨-, -, rfl⟩ | ⟨rfl, -, rfl⟩
    · exact hrequired hlast
    · rcases List.prefix_concat_iff.mp hlast with hsame | hearlier
      · obtain ⟨rfl, hevent⟩ := List.append_inj' hsame rfl
        obtain rfl := Event.doInitialize.inj (List.singleton_inj.mp hevent)
        exact ⟨ready.called (.doInitialize other), .own hready, rfl⟩
      · exact hrequired hearlier

theorem startServices_turn
    (h : application.startServices (.of outcome run) (fuel + 1) (some service) =
      some (returns, after)) :
    (application.startService (.of outcome run) fuel service = some (false, after) ∧
      returns = false) ∨
    ∃ middle, application.startService (.of outcome run) fuel service = some (true, middle) ∧
      middle.startServices (.of outcome run) fuel (middle.next service) = some (returns, after) := by
  rw [Application.startServices] at h
  rcases hstarted : application.startService (.of outcome run) fuel service with _ | ⟨_ | _, middle⟩
  · rw [hstarted] at h
    cases h
  · rw [hstarted] at h
    obtain ⟨rfl, rfl⟩ := Prod.mk.inj (Option.some.inj h)
    exact .inl ⟨rfl, rfl⟩
  · rw [hstarted] at h
    exact .inr ⟨middle, rfl, h⟩

theorem startServices_events {iterator : Option Nat}
    (h : application.startServices (.of outcome run) fuel iterator = some (returns, after)) :
    application.events <+: after.events := by
  induction fuel generalizing application iterator with
  | zero =>
    cases iterator with
    | none =>
      obtain ⟨-, rfl⟩ := Prod.mk.inj (Option.some.inj h)
      exact List.prefix_refl _
    | some service => cases h
  | succ fuel ih =>
    cases iterator with
    | none =>
      obtain ⟨-, rfl⟩ := Prod.mk.inj (Option.some.inj h)
      exact List.prefix_refl _
    | some service =>
      rcases startServices_turn h with ⟨hfails, -⟩ | ⟨middle, hstarted, hrest⟩
      · exact startService_events hfails
      · exact (startService_events hstarted).trans (ih hrest)

theorem startServices_calls {iterator : Option Nat}
    (h : application.startServices (.of outcome run) fuel iterator = some (returns, after))
    (hfirst : application.events <+: history)
    (hlast : history ++ [.doInitialize other] <+: after.events) :
    ∃ calling, LoopCalls (.of outcome run) fuel application iterator calling other ∧
      calling.events = history ++ [.doInitialize other] := by
  induction fuel generalizing application iterator with
  | zero =>
    cases iterator with
    | none =>
      obtain ⟨-, rfl⟩ := Prod.mk.inj (Option.some.inj h)
      exact (not_between hfirst hlast).elim
    | some service => cases h
  | succ fuel ih =>
    cases iterator with
    | none =>
      obtain ⟨-, rfl⟩ := Prod.mk.inj (Option.some.inj h)
      exact (not_between hfirst hlast).elim
    | some service =>
      have hturn : ∀ {returns' middle}, application.startService (.of outcome run) fuel service =
          some (returns', middle) → history ++ [.doInitialize other] <+: middle.events →
          ∃ calling, LoopCalls (.of outcome run) (fuel + 1) application (some service) calling other ∧
            calling.events = history ++ [.doInitialize other] := by
        intro returns' middle hstarted hmiddle
        obtain ⟨calling, hcalls, hevents⟩ := startService_calls hstarted hfirst hmiddle
        exact ⟨calling, .turn hcalls, hevents⟩
      rcases startServices_turn h with ⟨hfails, -⟩ | ⟨middle, hstarted, hrest⟩
      · exact hturn hfails hlast
      · rcases prefix_concat_cases (startServices_events hrest) hlast with hearlier | hlater
        · exact hturn hstarted hearlier
        · obtain ⟨calling, hcalls, hevents⟩ := ih hrest hlater
          exact ⟨calling, .later hstarted hcalls, hevents⟩

end Calls

section Termination

variable {outcome run : List Event → Bool} {base : List Event} {application after : Application}
  {service : Nat}

/-- The attached services that are not on the path of the search. -/
def Application.waiting (application : Application) : Nat :=
  application.m_services.countP fun service => application.status service ≠ .Starting

theorem Moves.waiting (h : Moves outcome base application after) :
    after.waiting = application.waiting := by
  rw [Application.waiting, Application.waiting, h.m_services]
  refine List.countP_congr fun service _ => ?_
  simp [h.starting service]

theorem waiting_setStatus (hmem : service ∈ application.m_services)
    (hstatus : application.status service ≠ .Starting) :
    (application.setStatus service .Starting).waiting < application.waiting := by
  obtain ⟨before, behind, hsplit⟩ := List.append_of_mem hmem
  have hle : ∀ services : List Nat,
      services.countP (fun other => (application.setStatus service .Starting).status other ≠ .Starting) ≤
        services.countP fun other => application.status other ≠ .Starting := by
    intro services
    refine List.countP_mono_left fun other _ hother => ?_
    rcases Decidable.em (other = service) with rfl | hne
    · simpa using hstatus
    · simpa [Application.setStatus, Function.update_of_ne hne] using hother
  have hbefore := hle before
  have hbehind := hle behind
  have hself : (application.setStatus service .Starting).status service = .Starting :=
    Function.update_self _ _ _
  have hservices : (application.setStatus service .Starting).m_services = application.m_services :=
    rfl
  rw [Application.waiting, Application.waiting, hservices, hsplit, List.countP_append,
    List.countP_append, List.countP_cons_of_neg (by simp [hself]),
    List.countP_cons_of_pos (by simpa using hstatus)]
  omega

theorem forEach_total {start : Application → Nat → Result} {fuel : Nat}
    (hmoves : ∀ application service returns after, service ∈ application.m_services →
      (application.status service).isStopped = true →
        start application service = some (returns, after) →
          Moves outcome application.events application after)
    (htotal : ∀ application service, service ∈ application.m_services →
      (application.status service).isStopped = true → application.waiting ≤ fuel →
        ∃ returns after, start application service = some (returns, after))
    (hfuel : application.waiting ≤ fuel) (requirements : List Requirement) :
    ∃ returns after, forEach (Application.satisfy start) application requirements =
      some (returns, after) := by
  induction requirements generalizing application with
  | nil => exact ⟨true, application, rfl⟩
  | cons requirement requirements ih =>
    have hsatisfy : ∃ returns after, application.satisfy start requirement = some (returns, after) ∧
        after.waiting = application.waiting := by
      rw [Application.satisfy]
      cases hselect : application.select requirement.m_feature requirement.m_implementation with
      | none => exact ⟨false, application, rfl, rfl⟩
      | some selection =>
        have hstopped (h : (application.status selection).isStopped = true) :
            ∃ returns after, start application selection = some (returns, after) ∧
              after.waiting = application.waiting := by
          have hmem := Application.select_mem hselect
          obtain ⟨returns, after, hstart⟩ := htotal application selection hmem h hfuel
          exact ⟨returns, after, hstart, (hmoves _ _ _ _ hmem h hstart).waiting⟩
        cases hstatus : application.status selection <;> simp only [hstatus]
        case Running => exact ⟨true, application, rfl, rfl⟩
        case Starting => exact ⟨false, application, rfl, rfl⟩
        case Stopped => exact hstopped (by rw [hstatus]; rfl)
        case StoppedWithError => exact hstopped (by rw [hstatus]; rfl)
    obtain ⟨returns, middle, hmiddle, hwaiting⟩ := hsatisfy
    rw [forEach, hmiddle]
    cases returns with
    | false => exact ⟨false, middle, rfl⟩
    | true => exact ih (hwaiting ▸ hfuel)

theorem requirements_total {fuel : Nat}
    (htotal : ∀ (application : Application) (service : Nat), service ∈ application.m_services →
      application.status service ≠ .Starting → application.waiting ≤ fuel →
        ∃ returns after, application.startService (.of outcome run) fuel service =
          some (returns, after))
    (hfuel : application.waiting ≤ fuel) (requirements : List Requirement) :
    ∃ returns after, forEach (Application.satisfy (Application.startService (.of outcome run) fuel))
      application requirements = some (returns, after) := by
  have hmoves : ∀ (application : Application) (service : Nat) (returns : Bool)
      (after : Application), service ∈ application.m_services →
        (application.status service).isStopped = true →
        application.startService (.of outcome run) fuel service = some (returns, after) →
          Moves outcome application.events application after :=
    fun application _ _ _ hmem hstopped hstarted =>
      (startService_moves (List.prefix_refl application.events) hmem hstopped hstarted).1
  have hstarts : ∀ (application : Application) (service : Nat), service ∈ application.m_services →
      (application.status service).isStopped = true → application.waiting ≤ fuel →
        ∃ returns after, application.startService (.of outcome run) fuel service =
          some (returns, after) := by
    intro application service hmem hstopped
    refine htotal application service hmem fun hstarting => ?_
    rw [hstarting] at hstopped
    cases hstopped
  exact forEach_total hmoves hstarts hfuel requirements

theorem startService_ends {fuel : Nat}
    (h : ∃ required ready, forEach (Application.satisfy (Application.startService (.of outcome run)
      fuel)) (application.setStatus service .Starting)
        (application.services service).m_requirements = some (required, ready)) :
    ∃ returns after, application.startService (.of outcome run) (fuel + 1) service =
      some (returns, after) := by
  obtain ⟨required, ready, hready⟩ := h
  rw [Application.startService, hready]
  cases required with
  | false => exact ⟨false, _, rfl⟩
  | true =>
    rw [Result.andThen, Application.doInitialize]
    cases houtcome : outcome (ready.events ++ [.doInitialize service])
    · exact ⟨false, (ready.called (.doInitialize service)).setStatus service .Stopped, by
        simp [Behaviour.of, Application.called, houtcome, forEach, Result.andThen]⟩
    · exact ⟨true, (ready.called (.doInitialize service)).setStatus service .Running, by
        simp [Behaviour.of, Application.called, houtcome, forEach, Result.andThen]⟩

/-- Each nested start puts another service on the path, so the search ends. -/
theorem startService_total (fuel : Nat) (application : Application) (service : Nat)
    (hmem : service ∈ application.m_services) (hstatus : application.status service ≠ .Starting)
    (hfuel : application.waiting ≤ fuel) :
    ∃ returns after, application.startService (.of outcome run) fuel service =
      some (returns, after) := by
  induction fuel generalizing application service with
  | zero =>
    have hlt := waiting_setStatus hmem hstatus
    omega
  | succ fuel ih =>
    have hlt := waiting_setStatus hmem hstatus
    have hwaiting : (application.setStatus service .Starting).waiting ≤ fuel := by omega
    exact startService_ends (requirements_total ih hwaiting _)

end Termination

end Coffee.App
