import Coffee.App.StartOrder
import Coffee.Library.Runs

/-! # Attaching a service

`attach` registers a service before it initializes it. Where a running application cannot initialize
the service, the exception leaves it registered.
-/

namespace Coffee.App

open Coffee.Basis Coffee.Library Library.Dependency Relation

inductive Attached where
  | throws
  | returns (registered : Bool)
deriving DecidableEq, Repr

namespace Application

/-- `attach` as its caller sees it, who may hand over a NULL pointer. -/
def attachService (behaviour : Behaviour) (fuel : Nat) (application : Application) :
    Option Nat → Option (Attached × Application)
  | none => some (.throws, application)
  | some service =>
    match application.attach (startService behaviour fuel) service with
    | none => none
    | some (true, after) => some (.returns (!application.defined service), after)
    | some (false, after) => some (.throws, after)

/-- What is done with an application. `start` comes as far as the run, which the stop ends. -/
inductive Call where
  | attach (service : Option Nat)
  | start
  | stop
deriving DecidableEq, Repr

def step (behaviour : Behaviour) (fuel : Nat) (application : Application) :
    Call → Option Application
  | .attach service => (application.attachService behaviour fuel service).map (·.2)
  | .start =>
    if application.m_statusFlags = .Running then some application
    else match application.started behaviour fuel with
    | none => none
    | some (false, after) => some (after.stop behaviour).2
    | some (true, after) => some after
  | .stop => some (application.stop behaviour).2

/-- No two registered services share feature and implementation. -/
def Unique (application : Application) : Prop :=
  application.m_services.Pairwise fun a b => ¬ (application.feature a = application.feature b ∧
    (application.services a).m_implementation = (application.services b).m_implementation)

end Application

/-- What an attachment owes its caller. -/
structure Atomic (application : Application) (service : Option Nat) (result : Attached)
    (after : Application) : Prop where
  throws : result = .throws → after.m_services = application.m_services ∧
    (∀ feature implementation,
      after.select feature implementation = application.select feature implementation) ∧
    ∀ other, after.defined other = application.defined other
  registered : result = .returns true → ∃ other, service = some other ∧ other ∈ after.m_services ∧
    (application.m_statusFlags = .Running → after.status other = .Running)
  unchanged : result = .returns false → after = application

/-- The `do_initialize` of the service returns, and what its requirements select is running or is
stopped and can be started itself. -/
inductive Startable (returns : Nat → Bool) (application : Application) : Nat → Prop
  | intro (service : Nat) (hreturns : returns service = true)
    (hmet : ¬ Unmet application.needs service)
    (hstarting : ∀ selection, Needs application.needs service selection →
      application.status selection ≠ .Starting)
    (h : ∀ selection, Needs application.needs service selection →
      (application.status selection).isStopped = true → Startable returns application selection) :
    Startable returns application service

section Unique

variable {application after : Application} {service : Nat}

theorem unique_insert (hnew : application.defined service = false) (h : application.Unique) :
    (application.insert service).Unique := by
  have hperm := List.perm_orderedInsert
    (fun a b => (application.feature a).value < (application.feature b).value) service
    application.m_services
  refine (hperm.pairwise_iff fun hab => ?_).mpr (List.pairwise_cons.mpr ⟨?_, h⟩)
  · rintro ⟨hfeature, himplementation⟩
    exact hab ⟨hfeature.symm, himplementation.symm⟩
  · rintro other hother ⟨hfeature, himplementation⟩
    have hany := List.any_eq_false.mp hnew other hother
    simp only [Bool.and_eq_true, decide_eq_true_eq, not_and] at hany
    exact hany hfeature.symm himplementation.symm

theorem stable_unique : Stable Application.Unique where
  setStatus _ _ _ h := h
  called _ _ h := h
  insert _ _ hnew h := unique_insert hnew h

theorem unique_stopServices (behaviour : Behaviour) (h : application.Unique) (services : List Nat) :
    (application.stopServices behaviour services).2.Unique := by
  induction services generalizing application with
  | nil => exact h
  | cons service services ih =>
    rw [Application.stopServices]
    refine ih ?_
    rw [Application.stopService]
    split
    · exact h
    · exact h

theorem unique_stop (behaviour : Behaviour) (h : application.Unique) :
    (application.stop behaviour).2.Unique := by
  rw [Application.stop]
  split
  · exact h
  · exact unique_stopServices behaviour h application.m_services

theorem attachService_cases {behaviour : Behaviour} {fuel : Nat} {result : Attached}
    (h : application.attachService behaviour fuel (some service) = some (result, after)) :
    ∃ returns, application.attach (Application.startService behaviour fuel) service =
        some (returns, after) ∧
      result = if returns then .returns (!application.defined service) else .throws := by
  rw [Application.attachService] at h
  split at h
  · cases h
  · rename_i middle hattach
    cases h
    exact ⟨true, hattach, rfl⟩
  · rename_i middle hattach
    cases h
    exact ⟨false, hattach, rfl⟩

theorem unique_step {behaviour : Behaviour} {fuel : Nat} {call : Application.Call}
    (h : application.Unique) (hafter : after ∈ application.step behaviour fuel call) :
    after.Unique := by
  have hstart : ∀ (application : Application) service, application.Unique →
      (application.startService behaviour fuel service).Keeps Application.Unique :=
    fun _ service h => startService_keeps stable_unique behaviour fuel h service
  cases call with
  | attach service =>
    obtain ⟨⟨result, after⟩, hresult, rfl⟩ := Option.map_eq_some_iff.mp hafter
    cases service with
    | none =>
      cases hresult
      exact h
    | some service =>
      obtain ⟨returns, hattach, -⟩ := attachService_cases hresult
      exact attach_keeps stable_unique hstart h service _ _ hattach
  | start =>
    rw [Application.step] at hafter
    split at hafter
    · cases hafter
      exact h
    · have hstarted : (application.started behaviour fuel).Keeps Application.Unique := by
        have hbegun : Application.Unique { application with m_statusFlags := .Starting } := h
        exact (startServices_keeps stable_unique behaviour fuel hbegun _).andThen
          fun _ hmiddle => .of_some hmiddle
      split at hafter
      · cases hafter
      · rename_i middle hmiddle
        cases hafter
        exact unique_stop behaviour (hstarted _ _ hmiddle)
      · rename_i middle hmiddle
        cases hafter
        exact hstarted _ _ hmiddle
  | stop =>
    cases hafter
    exact unique_stop behaviour h

end Unique

section Atomic

variable {behaviour : Behaviour} {fuel : Nat} {application after : Application} {service : Nat}
  {result : Attached}

theorem startService_running
    (h : application.startService behaviour fuel service = some (true, after)) :
    after.status service = .Running := by
  cases fuel with
  | zero => cases h
  | succ fuel =>
    obtain ⟨middle, -, rfl⟩ := startService_cases h
    exact Function.update_self _ _ _

theorem mem_insert (application : Application) (service : Nat) :
    service ∈ (application.insert service).m_services :=
  (List.perm_orderedInsert _ _ _).mem_iff.mpr List.mem_cons_self

/-- How an attachment ends: with a service of the same feature and implementation, of an application
that is not running, or with the start of the service. -/
theorem attachService_steps
    (h : application.attachService behaviour fuel (some service) = some (result, after)) :
    (application.defined service = true ∧ result = .returns false ∧ after = application) ∨
      (application.defined service = false ∧ application.m_statusFlags ≠ .Running ∧
        result = .returns true ∧ after = application.insert service) ∨
      (application.defined service = false ∧ application.m_statusFlags = .Running ∧
        ∃ returns, (application.insert service).startService behaviour fuel service =
            some (returns, after) ∧
          result = if returns then .returns true else .throws) := by
  obtain ⟨returns, hattach, rfl⟩ := attachService_cases h
  rw [Application.attach] at hattach
  cases hdefined : application.defined service with
  | true =>
    rw [if_pos hdefined] at hattach
    cases hattach
    exact .inl ⟨rfl, rfl, rfl⟩
  | false =>
    rw [if_neg (by simp [hdefined])] at hattach
    split at hattach
    · rename_i hrunning
      exact .inr (.inr ⟨rfl, hrunning, returns, hattach, rfl⟩)
    · rename_i hstopped
      cases hattach
      exact .inr (.inl ⟨rfl, hstopped, rfl, rfl⟩)

theorem Atomic.of_registered {service : Option Nat} (hresult : result = .returns true)
    (h : ∃ other, service = some other ∧ other ∈ after.m_services ∧
      (application.m_statusFlags = .Running → after.status other = .Running)) :
    Atomic application service result after where
  throws hthrows := by
    rw [hresult] at hthrows
    cases hthrows
  registered _ := h
  unchanged hfalse := by
    rw [hresult] at hfalse
    cases hfalse

/-- An attachment is atomic unless it throws for a service that is not NULL. -/
theorem atomic_iff {service : Option Nat}
    (h : application.attachService behaviour fuel service = some (result, after)) :
    Atomic application service result after ↔ (result = .throws → service = none) := by
  cases service with
  | none =>
    cases h
    refine iff_of_true ⟨fun _ => ⟨rfl, fun _ _ => rfl, fun _ => rfl⟩, fun htrue => ?_,
      fun hfalse => ?_⟩ fun _ => rfl
    · cases htrue
    · cases hfalse
  | some service =>
    rcases attachService_steps h with
      ⟨-, rfl, rfl⟩ | ⟨-, hstopped, rfl, rfl⟩ | ⟨hnew, hrunning, returns, hstart, rfl⟩
    · refine iff_of_true ⟨fun hthrows => ?_, fun htrue => ?_, fun _ => rfl⟩ fun hthrows => ?_
      · cases hthrows
      · cases htrue
      · cases hthrows
    · refine iff_of_true (.of_registered rfl ?_) fun hthrows => by cases hthrows
      exact ⟨service, rfl, mem_insert application service, fun hrunning => absurd hrunning hstopped⟩
    · have hgrows := startService_grows behaviour fuel _ service returns after hstart
      have hmem := hgrows.m_services.subset (mem_insert application service)
      cases returns with
      | true =>
        refine iff_of_true (.of_registered rfl ?_) fun hthrows => by cases hthrows
        exact ⟨service, rfl, hmem, fun _ => startService_running hstart⟩
      | false =>
        refine iff_of_false (fun hatomic => ?_) fun hnone => by cases hnone rfl
        rw [(hatomic.throws rfl).1] at hmem
        exact Application.not_mem_of_defined hnew hmem

end Atomic

/-- The `do_initialize` of each service returns or throws at the call that an attachment makes. -/
def lastCall (returns : Nat → Bool) (events : List Event) : Bool :=
  match events.getLast? with
  | some (.doInitialize service) => returns service
  | _ => true

@[simp] theorem lastCall_doInitialize (returns : Nat → Bool) (events : List Event) (service : Nat) :
    lastCall returns (events ++ [.doInitialize service]) = returns service := by
  simp [lastCall]

/-- A need that the start of a service would have to start. -/
def Starts (application : Application) (service selection : Nat) : Prop :=
  Needs application.needs service selection ∧ (application.status selection).isStopped = true

/-- The state within the start of a service of `begun`: what runs now and did not is startable. -/
structure Underway (returns : Nat → Bool) (begun application : Application) : Prop where
  needs : application.needs = begun.needs
  status : ∀ service, application.status service = begun.status service ∨
    (begun.status service).isStopped = true ∧ (application.status service = .Starting ∨
      application.status service = .Running ∧ Startable returns begun service)

section Startable

variable {returns : Nat → Bool} {run : List Event → Bool} {fuel : Nat}
  {begun application after : Application} {service selection : Nat}

theorem Startable.not_loop (h : Startable returns application service) :
    ¬ TransGen (Starts application) service service := by
  induction h with
  | intro service _ _ _ h ih =>
    intro hloop
    obtain ⟨selection, hstarts, hback⟩ := TransGen.head'_iff.mp hloop
    exact ih selection hstarts.1 hstarts.2 (TransGen.trans_right hback (.single hstarts))

theorem status_setStatus_of_ne {other : Nat} (hne : other ≠ service) (status : Status) :
    (application.setStatus service status).status other = application.status other :=
  Function.update_of_ne hne _ _

theorem Underway.refl (returns : Nat → Bool) (application : Application) :
    Underway returns application application := ⟨rfl, fun _ => .inl rfl⟩

theorem Underway.stopped (h : Underway returns begun application)
    (hstopped : (application.status service).isStopped = true) :
    (begun.status service).isStopped = true := by
  rcases h.status service with hsame | ⟨hbegun, -⟩
  · rwa [← hsame]
  · exact hbegun

theorem Underway.setStarting (h : Underway returns begun application)
    (hstopped : (application.status service).isStopped = true) :
    Underway returns begun (application.setStatus service .Starting) := by
  refine ⟨h.needs, fun other => ?_⟩
  rcases Decidable.em (other = service) with rfl | hne
  · exact .inr ⟨h.stopped hstopped, .inl (Function.update_self _ _ _)⟩
  · rw [status_setStatus_of_ne hne]
    exact h.status other

theorem Underway.setRunning (h : Underway returns begun application)
    (hstopped : (begun.status service).isStopped = true)
    (hstartable : Startable returns begun service) (event : Event) :
    Underway returns begun ((application.called event).setStatus service .Running) := by
  refine ⟨h.needs, fun other => ?_⟩
  rcases Decidable.em (other = service) with rfl | hne
  · exact .inr ⟨hstopped, .inr ⟨Function.update_self _ _ _, hstartable⟩⟩
  · rw [status_setStatus_of_ne hne]
    exact h.status other

theorem requirements_underway {requirements : List Requirement}
    (hcalls : ∀ (application : Application) (service : Nat) (after : Application),
      application.startService (.of (lastCall returns) run) fuel service = some (true, after) →
      Underway returns begun (application.setStatus service .Starting) →
        Startable returns begun service ∧
          ((begun.status service).isStopped = true → Underway returns begun after))
    (hunderway : Underway returns begun application)
    (h : forEach (Application.satisfy (Application.startService (.of (lastCall returns) run) fuel))
      application requirements = some (true, after)) : Underway returns begun after := by
  have hstep : ∀ (application : Application) (service : Nat) (result : Bool) (after : Application),
      (true = true → Underway returns begun application) →
      service ∈ application.m_services → (application.status service).isStopped = true →
      application.startService (.of (lastCall returns) run) fuel service = some (result, after) →
        result = true → Underway returns begun after := by
    rintro application service _ after hunderway - hstopped hstarted rfl
    have hnow := hunderway rfl
    exact (hcalls _ _ _ hstarted (hnow.setStarting hstopped)).2 (hnow.stopped hstopped)
  have hends : true = true → Underway returns begun after :=
    requirements_induction (P := fun result after => result = true → Underway returns begun after)
      (fun _ _ hunderway _ => hunderway rfl) hstep (fun _ => hunderway) h
  exact hends rfl

/-- What was started with success was startable. -/
theorem startService_startable
    (h : application.startService (.of (lastCall returns) run) fuel service = some (true, after))
    (hunderway : Underway returns begun (application.setStatus service .Starting)) :
    Startable returns begun service ∧
      ((begun.status service).isStopped = true → Underway returns begun after) := by
  induction fuel generalizing application service after with
  | zero => cases h
  | succ fuel ih =>
    obtain ⟨required, ready, hready, hcases⟩ := startService_steps h
    rcases hcases with ⟨-, hfalse, -⟩ | ⟨rfl, houtcome, rfl⟩
    · cases hfalse
    · rw [lastCall_doInitialize] at houtcome
      have hnow : Underway returns begun ready :=
        requirements_underway (fun _ _ _ => ih) hunderway hready
      have hmoves : Moves (lastCall returns) application.events
          (application.setStatus service .Starting) ready :=
        requirements_moves (List.prefix_refl _) hready
      have hrunning : ∀ need ∈ begun.needs service, ∃ selection, need = some selection ∧
          ready.status selection = .Running := by
        intro need hneed
        rw [← hnow.needs, Application.needs, hmoves.services, List.mem_map] at hneed
        obtain ⟨requirement, hmem, rfl⟩ := hneed
        exact requirements_running hready requirement hmem
      have hstartable : Startable returns begun service := by
        refine .intro service houtcome.symm (fun hunmet => ?_) (fun selection hneeds hstarting => ?_)
          fun selection hneeds hstopped => ?_
        · obtain ⟨selection, hselect, -⟩ := hrunning none hunmet
          cases hselect
        · obtain ⟨running, hselect, hrun⟩ := hrunning (some selection) hneeds
          obtain rfl := Option.some.inj hselect
          rcases hnow.status selection with hsame | ⟨hbefore, -⟩
          · rw [hsame, hstarting] at hrun
            cases hrun
          · rw [hstarting] at hbefore
            cases hbefore
        · obtain ⟨running, hselect, hrun⟩ := hrunning (some selection) hneeds
          obtain rfl := Option.some.inj hselect
          rcases hnow.status selection with hsame | ⟨-, hstarting | ⟨-, hstartable⟩⟩
          · rw [← hsame, hrun] at hstopped
            cases hstopped
          · rw [hstarting] at hrun
            cases hrun
          · exact hstartable
      exact ⟨hstartable, fun hstopped => hnow.setRunning hstopped hstartable _⟩

/-- What is startable is started with success, as long as nothing it starts is starting already. -/
theorem Startable.startService (h : Startable returns begun service)
    (hunderway : Underway returns begun (application.setStatus service .Starting))
    (hpath : ∀ selection, TransGen (Starts begun) service selection →
      (application.setStatus service .Starting).status selection ≠ .Starting) :
    application.startService (.of (lastCall returns) run) fuel service ≠ some (false, after) := by
  induction h generalizing application fuel after with
  | intro service hreturns hmet hstarting hstartable ih =>
    intro hfails
    cases fuel with
    | zero => cases hfails
    | succ fuel =>
      obtain ⟨required, ready, hready, hcases⟩ := startService_steps hfails
      rcases hcases with ⟨rfl, -, -⟩ | ⟨-, houtcome, -⟩
      · obtain ⟨before, requirement, behind, middle, hsplit, hbefore, hsatisfy⟩ := forEach_fails hready
        have hnow : Underway returns begun middle :=
          requirements_underway (fun _ _ _ => startService_startable) hunderway hbefore
        have hmoves : Moves (lastCall returns) application.events
            (application.setStatus service .Starting) middle :=
          requirements_moves (List.prefix_refl _) hbefore
        have hneed : middle.select requirement.m_feature requirement.m_implementation ∈
            begun.needs service := by
          rw [← hnow.needs, Application.needs, hmoves.services]
          refine List.mem_map_of_mem (f := fun requirement : Requirement =>
            middle.select requirement.m_feature requirement.m_implementation) ?_
          exact hsplit ▸ List.mem_append_right before List.mem_cons_self
        have hfree : ∀ selection, TransGen (Starts begun) service selection →
            middle.status selection ≠ .Starting := by
          intro selection hreach hstarts
          rw [hmoves.starting] at hstarts
          exact hpath selection hreach hstarts
        rcases satisfy_steps hsatisfy with
          ⟨hnone, -⟩ | ⟨selection, hselect, ⟨-, htrue, -⟩ | ⟨hstarts, -⟩ | ⟨hstopped, hstarted⟩⟩
        · rw [hnone] at hneed
          exact hmet hneed
        · cases htrue
        · rw [hselect] at hneed
          rcases hnow.status selection with hsame | ⟨hbegun, -⟩
          · exact hstarting selection hneed (hsame.symm.trans hstarts)
          · exact hfree selection (.single ⟨hneed, hbegun⟩) hstarts
        · rw [hselect] at hneed
          have hbegun := hnow.stopped hstopped
          have hstarts : Starts begun service selection := ⟨hneed, hbegun⟩
          refine ih selection hneed hbegun (hnow.setStarting hstopped) (fun other hreach => ?_) hstarted
          rcases Decidable.em (other = selection) with rfl | hne
          · exact absurd hreach (hstartable other hneed hbegun).not_loop
          · rw [status_setStatus_of_ne hne]
            exact hfree other (.head hstarts hreach)
      · rw [lastCall_doInitialize, hreturns] at houtcome
        cases houtcome

end Startable

section Atomicity

variable {returns : Nat → Bool} {run : List Event → Bool}

/-- What has to be startable is a new service of a running application. -/
def Attachable (returns : Nat → Bool) (application : Application) (service : Option Nat) : Prop :=
  application.m_statusFlags = .Running → ∀ other, service = some other →
    application.defined other = false →
      Startable returns ((application.insert other).setStatus other .Starting) other

theorem startService_throws_iff {fuel : Nat} {application after : Application} {service : Nat}
    {result : Bool} (h : application.startService (.of (lastCall returns) run) fuel service =
      some (result, after)) :
    result = true ↔ Startable returns (application.setStatus service .Starting) service := by
  have hunderway := Underway.refl returns (application.setStatus service .Starting)
  constructor
  · rintro rfl
    exact (startService_startable h hunderway).1
  · intro hstartable
    cases result with
    | true => rfl
    | false =>
      refine absurd h (hstartable.startService hunderway fun selection hreach hstarting => ?_)
      obtain ⟨before, -, -, hstopped⟩ := TransGen.tail'_iff.mp hreach
      rw [hstarting] at hstopped
      cases hstopped

theorem attachService_total (application : Application) (service : Option Nat) :
    ∃ enough, ∀ fuel, enough ≤ fuel → ∃ result after,
      application.attachService (.of (lastCall returns) run) fuel service = some (result, after) := by
  cases service with
  | none => exact ⟨0, fun fuel _ => ⟨.throws, application, rfl⟩⟩
  | some service =>
    refine ⟨((application.insert service).setStatus service .Starting).waiting + 1,
      fun fuel hfuel => ?_⟩
    obtain ⟨fuel, rfl⟩ : ∃ rest, fuel = rest + 1 := Nat.exists_eq_add_one_of_ne_zero (by omega)
    have hattach : ∃ returned after, application.attach (Application.startService
        (.of (lastCall returns) run) (fuel + 1)) service = some (returned, after) := by
      rw [Application.attach]
      split
      · exact ⟨_, _, rfl⟩
      · split
        · refine startService_ends (requirements_total ?_ (Nat.le_of_succ_le_succ hfuel) _)
          exact fun application service => startService_total fuel application service
        · exact ⟨_, _, rfl⟩
    obtain ⟨returned, after, hattach⟩ := hattach
    rw [Application.attachService, hattach]
    cases returned with
    | false => exact ⟨_, _, rfl⟩
    | true => exact ⟨_, _, rfl⟩

theorem atomic_iff_attachable {fuel : Nat} {application after : Application} {service : Option Nat}
    {result : Attached} (h : application.attachService (.of (lastCall returns) run) fuel service =
      some (result, after)) :
    Atomic application service result after ↔ Attachable returns application service := by
  rw [atomic_iff h]
  cases service with
  | none => exact iff_of_true (fun _ => rfl) fun _ other hother => by cases hother
  | some service =>
    rcases attachService_steps h with
      ⟨hdefined, rfl, -⟩ | ⟨-, hstopped, rfl, -⟩ | ⟨hnew, hrunning, started, hstart, rfl⟩
    · refine iff_of_true (fun hthrows => by cases hthrows) fun _ other hother hnew => ?_
      cases hother
      rw [hdefined] at hnew
      cases hnew
    · exact iff_of_true (fun hthrows => by cases hthrows) fun hrunning => absurd hrunning hstopped
    · have hiff := startService_throws_iff hstart
      constructor
      · rintro hnull - other hother -
        cases hother
        refine hiff.mp ?_
        cases started with
        | true => rfl
        | false => cases hnull rfl
      · intro hattachable hthrows
        rw [hiff.mpr (hattachable hrunning service rfl hnew)] at hthrows
        cases hthrows

/-- In every state that attachments, starts and stops lead to, no two registered services share
feature and implementation. An attachment that does not throw is atomic, and one to a running
application is atomic just when the new service is startable. -/
theorem attach_atomic_iff (run : List Event → Bool) :
    (∀ behaviour fuel services (calls : List Application.Call),
      ∀ after ∈ Runs.run? (Application.step behaviour fuel) (.instantiate services) calls,
        after.Unique) ∧
    (∀ behaviour fuel application service result after,
      Application.attachService behaviour fuel application service = some (result, after) →
        result ≠ .throws → Atomic application service result after) ∧
    ∀ returns application service, ∃ enough, ∀ fuel, enough ≤ fuel → ∃ result after,
      application.attachService (.of (lastCall returns) run) fuel service = some (result, after) ∧
      (Atomic application service result after ↔ Attachable returns application service) := by
  refine ⟨fun behaviour fuel services calls after hafter => ?_, ?_, ?_⟩
  · have hstep : ∀ (application : Application) call after, application.Unique →
        after ∈ application.step behaviour fuel call → after.Unique :=
      fun _ _ _ h hafter => unique_step h hafter
    have hempty : (Application.instantiate services).Unique := List.Pairwise.nil
    exact Runs.run?_invariant hstep hempty hafter
  · intro behaviour fuel application service result after h hreturns
    exact (atomic_iff h).mpr fun hthrows => absurd hthrows hreturns
  · intro returns application service
    obtain ⟨enough, htotal⟩ := @attachService_total returns run application service
    refine ⟨enough, fun fuel hfuel => ?_⟩
    obtain ⟨result, after, hattach⟩ := htotal fuel hfuel
    exact ⟨result, after, hattach, atomic_iff_attachable hattach⟩

/-- A running application without any service and a service that requires another one. -/
theorem not_atomic : ¬ ∀ behaviour fuel application service result after,
    Application.attachService behaviour fuel application service = some (result, after) →
      Atomic application service result after := by
  intro h
  let service : Service := ⟨.UserDefined, text "00", [⟨.Database, WhateverImplementation⟩]⟩
  let running : Application := { Application.instantiate fun _ => service with
    m_statusFlags := .Running }
  have hatomic := h (.of (fun _ => true) fun _ => true) 1 running (some 0) _ _ rfl
  exact absurd (hatomic.throws rfl).1 (by decide)

end Atomicity

end Coffee.App
