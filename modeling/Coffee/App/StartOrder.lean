import Coffee.App.Dependencies

/-! # The order of the start-up

A start-up that gets all services running has met no cycle and no requirement without a service. One
that throws has met one of them, or a `doInitialize` that throws.
-/

namespace Coffee.App

open Coffee.Basis Coffee.Library Library.Dependency Relation

/-- What a running service needs runs, and no cycle is among it. -/
def Settled (application : Application) : Prop :=
  ∀ service, application.status service = .Running → Grounded application.needs service ∧
    ∀ need ∈ application.needs service, ∃ selection, need = some selection ∧
      application.status selection = .Running

section Settled

variable {outcome run : List Event → Bool} {base : List Event} {application after : Application}
  {service : Nat} {status : Status} {fuel : Nat} {returns : Bool}

theorem Settled.grounded (h : Settled application)
    (hneeds : ∀ need ∈ application.needs service, ∃ selection, need = some selection ∧
      application.status selection = .Running) : Grounded application.needs service := by
  refine .intro service (fun hunmet => ?_) fun selection hselection => ?_
  · obtain ⟨selection, hselect, -⟩ := hneeds none hunmet
    cases hselect
  · obtain ⟨running, hselect, hrunning⟩ := hneeds (some selection) hselection
    obtain rfl := Option.some.inj hselect
    exact (h selection hrunning).1

theorem Settled.setStatus (h : Settled application) (hservice : application.status service ≠ .Running)
    (hstatus : status ≠ .Running) : Settled (application.setStatus service status) := by
  intro other hother
  have hne : other ≠ service := by
    rintro rfl
    exact hstatus ((Function.update_self _ _ _).symm.trans hother)
  obtain ⟨hgrounded, hneeds⟩ := h other ((Function.update_of_ne hne _ _).symm.trans hother)
  refine ⟨hgrounded, fun need hneed => ?_⟩
  obtain ⟨selection, hselect, hrunning⟩ := hneeds need hneed
  have hne' : selection ≠ service := by
    rintro rfl
    exact hservice hrunning
  exact ⟨selection, hselect, (Function.update_of_ne hne' _ _).trans hrunning⟩

theorem Settled.setRunning (h : Settled application)
    (hneeds : ∀ need ∈ application.needs service, ∃ selection, need = some selection ∧
      application.status selection = .Running) :
    Settled (application.setStatus service .Running) := by
  have hstays : ∀ selection, application.status selection = .Running →
      (application.setStatus service .Running).status selection = .Running := by
    intro selection hrunning
    rcases Decidable.em (selection = service) with rfl | hne
    · exact Function.update_self _ _ _
    · exact (Function.update_of_ne hne _ _).trans hrunning
  intro other hother
  have hother : Grounded application.needs other ∧ ∀ need ∈ application.needs other,
      ∃ selection, need = some selection ∧ application.status selection = .Running := by
    rcases Decidable.em (other = service) with rfl | hne
    · exact ⟨h.grounded hneeds, hneeds⟩
    · exact h other ((Function.update_of_ne hne _ _).symm.trans hother)
  refine ⟨hother.1, fun need hneed => ?_⟩
  obtain ⟨selection, hselect, hrunning⟩ := hother.2 need hneed
  exact ⟨selection, hselect, hstays selection hrunning⟩

theorem startService_settled (hsettled : Settled application)
    (hstopped : (application.status service).isStopped = true)
    (h : application.startService (.of outcome run) fuel service = some (returns, after)) :
    Settled after := by
  induction fuel generalizing application service returns after with
  | zero => cases h
  | succ fuel ih =>
    obtain ⟨required, ready, hready, hcases⟩ := startService_steps h
    have hservice : application.status service ≠ .Running := by
      intro hrunning
      rw [hrunning] at hstopped
      cases hstopped
    have hstarting : Settled (application.setStatus service .Starting) :=
      hsettled.setStatus hservice (by simp)
    have hcalls : ∀ (application : Application) (service : Nat) (returns : Bool)
        (after : Application), Settled application → service ∈ application.m_services →
          (application.status service).isStopped = true →
          application.startService (.of outcome run) fuel service = some (returns, after) →
            Settled after := fun _ _ _ _ hsettled _ hstopped hstarted =>
      ih hsettled hstopped hstarted
    have hsettled : Settled ready := requirements_induction (P := fun _ after => Settled after)
      (fun _ _ => id) hcalls hstarting hready
    have hmoves : Moves outcome application.events (application.setStatus service .Starting) ready :=
      requirements_moves (List.prefix_refl _) hready
    have hpath : ready.status service ≠ .Running := by
      rw [(hmoves.starting service).mpr (Function.update_self _ _ _)]
      simp
    rcases hcases with ⟨-, -, rfl⟩ | ⟨rfl, -, rfl⟩
    · exact hsettled.setStatus hpath (by simp)
    · cases returns with
      | false => exact Settled.setStatus hsettled hpath (by simp)
      | true =>
        have hneeds : ∀ need ∈ ready.needs service, ∃ selection, need = some selection ∧
            ready.status selection = .Running := by
          intro need hneed
          rw [Application.needs, hmoves.services, List.mem_map] at hneed
          obtain ⟨requirement, hmem, rfl⟩ := hneed
          exact requirements_running hready requirement hmem
        exact Settled.setRunning hsettled hneeds

/-- What returns has made calls that returned. -/
theorem requirements_returned {requirements : List Requirement} (hbase : base <+: application.events)
    (hreturned : ∀ event, ¬ Made outcome base application.events event false)
    (hcalls : ∀ (application : Application) (service : Nat) (after : Application),
      base <+: application.events →
      (∀ event, ¬ Made outcome base application.events event false) →
      application.startService (.of outcome run) fuel service = some (true, after) →
        ∀ event, ¬ Made outcome base after.events event false)
    (h : forEach (Application.satisfy (Application.startService (.of outcome run) fuel)) application
      requirements = some (true, after)) :
    ∀ event, ¬ Made outcome base after.events event false := by
  have hstep : ∀ (application : Application) (service : Nat) (returns : Bool) (after : Application),
      (true = true → base <+: application.events ∧
        ∀ event, ¬ Made outcome base application.events event false) →
      service ∈ application.m_services → (application.status service).isStopped = true →
      application.startService (.of outcome run) fuel service = some (returns, after) →
        returns = true → base <+: after.events ∧
          ∀ event, ¬ Made outcome base after.events event false := by
    rintro application service _ after hmade hmem hstopped hstarted rfl
    obtain ⟨hbase, hreturned⟩ := hmade rfl
    exact ⟨hbase.trans (startService_moves hbase hmem hstopped hstarted).1.events,
      hcalls application service after hbase hreturned hstarted⟩
  have hends : true = true → base <+: after.events ∧
      ∀ event, ¬ Made outcome base after.events event false :=
    requirements_induction (P := fun returns after => returns = true → base <+: after.events ∧
      ∀ event, ¬ Made outcome base after.events event false) (fun _ _ hmade _ => hmade rfl) hstep
      (fun _ => ⟨hbase, hreturned⟩) h
  exact (hends rfl).2

theorem startService_returned (hbase : base <+: application.events)
    (hreturned : ∀ event, ¬ Made outcome base application.events event false)
    (h : application.startService (.of outcome run) fuel service = some (true, after)) :
    ∀ event, ¬ Made outcome base after.events event false := by
  induction fuel generalizing application service after with
  | zero => cases h
  | succ fuel ih =>
    obtain ⟨required, ready, hready, hcases⟩ := startService_steps h
    rcases hcases with ⟨-, hfalse, -⟩ | ⟨rfl, houtcome, rfl⟩
    · cases hfalse
    · have hmoves : Moves outcome base (application.setStatus service .Starting) ready :=
        requirements_moves hbase hready
      have hbegun : base <+: (application.setStatus service .Starting).events := hbase
      have hreturned : ∀ event, ¬ Made outcome base ready.events event false :=
        requirements_returned hbegun hreturned (fun _ _ _ => ih) hready
      intro event hmade
      rcases (made_concat (hbase.trans hmoves.events)).mp hmade with hearlier | ⟨-, hfails⟩
      · exact hreturned event hearlier
      · rw [hfails] at houtcome
        cases houtcome

theorem forEach_running {start : Application → Nat → Result} {requirements : List Requirement}
    (h : ∀ requirement ∈ requirements, ∃ selection,
      application.select requirement.m_feature requirement.m_implementation = some selection ∧
        application.status selection = .Running) :
    forEach (Application.satisfy start) application requirements = some (true, application) := by
  induction requirements with
  | nil => rfl
  | cons requirement requirements ih =>
    obtain ⟨⟨selection, hselect, hrunning⟩, hrest⟩ := List.forall_mem_cons.mp h
    rw [forEach, Application.satisfy, hselect]
    simp only [hrunning]
    exact ih hrest

/-- A running service is called once more, and then it runs or is stopped. -/
theorem startService_again (hsettled : Settled application)
    (hrunning : application.status service = .Running) :
    application.startService (.of outcome run) (fuel + 1) service =
      some (outcome (application.events ++ [.doInitialize service]),
        (application.called (.doInitialize service)).setStatus service
          (if outcome (application.events ++ [.doInitialize service]) then .Running
            else .Stopped)) := by
  obtain ⟨hgrounded, hneeds⟩ := hsettled service hrunning
  have hrequired : forEach (Application.satisfy (Application.startService (.of outcome run) fuel))
      (application.setStatus service .Starting) (application.services service).m_requirements =
        some (true, application.setStatus service .Starting) := by
    refine forEach_running fun requirement hmem => ?_
    have hneed : application.select requirement.m_feature requirement.m_implementation ∈
        application.needs service := List.mem_map_of_mem hmem
    obtain ⟨selection, hselect, hselected⟩ := hneeds _ hneed
    have hne : selection ≠ service := by
      rintro rfl
      rw [hselect] at hneed
      exact hgrounded.not_leadsToCycle ⟨selection, .refl, .single hneed⟩
    exact ⟨selection, hselect, (Function.update_of_ne hne _ _).trans hselected⟩
  have hupdate (status : Status) : Function.update
      (Function.update application.status service .Starting) service status =
        Function.update application.status service status := Function.update_idem _ _ _
  rw [Application.startService, hrequired, Result.andThen, Application.doInitialize]
  cases houtcome : outcome (application.events ++ [.doInitialize service]) <;>
    simp [Behaviour.of, Application.called, Application.setStatus, houtcome, forEach, Result.andThen,
      hupdate]

end Settled

/-- Why the start of a service throws: a requirement that nothing is selected for, a cycle, or a last
call that throws, of a service that was not called with success before. All other calls returned. -/
def Blamed (outcome : List Event → Bool) (base : List Event) (application after : Application)
    (service : Nat) : Prop :=
  ∃ other, ReflTransGen (Needs application.needs) service other ∧
    ((Unmet application.needs other ∨ LeadsToCycle application.needs other) ∧
      (∀ event, ¬ Made outcome base after.events event false) ∨
    ∃ history, base <+: history ∧ after.events = history ++ [.doInitialize other] ∧
      outcome after.events = false ∧ ¬ Made outcome base history (.doInitialize other) true ∧
      ∀ event, ¬ Made outcome base history event false)

section Blamed

variable {outcome run : List Event → Bool} {base : List Event} {application after : Application}
  {service : Nat} {fuel : Nat}

theorem forEach_fails {α : Type} {body : Application → α → Result} {as : List α}
    (h : forEach body application as = some (false, after)) :
    ∃ before a behind middle, as = before ++ a :: behind ∧
      forEach body application before = some (true, middle) ∧ body middle a = some (false, after) := by
  induction as generalizing application with
  | nil => cases h
  | cons a as ih =>
    rcases forEach_cons_eq_some h with ⟨hfails, -⟩ | ⟨middle, hmiddle, hrest⟩
    · exact ⟨[], a, as, application, rfl, rfl, hfails⟩
    · obtain ⟨before, b, behind, last, rfl, hbefore, hfails⟩ := ih hrest
      refine ⟨a :: before, b, behind, last, rfl, ?_, hfails⟩
      rw [forEach, hmiddle]
      exact hbefore

/-- Behind some requirements, the services that are starting are the path to the one that is started,
and that one. -/
theorem Moves.reaches {middle : Application}
    (h : Moves outcome base (application.setStatus service .Starting) middle)
    (hpath : ∀ other, application.status other = .Starting →
      TransGen (Needs application.needs) other service) {other : Nat}
    (hother : middle.status other = .Starting) : ReflTransGen (Needs application.needs) other service := by
  rw [h.starting] at hother
  rcases Decidable.em (other = service) with rfl | hne
  · exact .refl
  · exact (hpath other ((Function.update_of_ne hne _ _).symm.trans hother)).to_reflTransGen

/-- Behind some requirements, every service that was called with success is running still. -/
theorem Moves.called {middle : Application}
    (h : Moves outcome base (application.setStatus service .Starting) middle)
    (hstopped : (application.status service).isStopped = true)
    (hmade : ∀ other, Made outcome base application.events (.doInitialize other) true →
      application.status other = .Running) {other : Nat}
    (hother : Made outcome base middle.events (.doInitialize other) true) :
    middle.status other = .Running := by
  rcases h.initialized other hother with hearlier | hrunning
  · have hrunning := hmade other hearlier
    have hne : other ≠ service := by
      rintro rfl
      rw [hrunning] at hstopped
      cases hstopped
    have hrunning : (application.setStatus service .Starting).status other = .Running :=
      (Function.update_of_ne hne _ _).trans hrunning
    exact (h.busy other (by rw [hrunning]; rfl)).trans hrunning
  · exact hrunning

/-- The services that are starting are the path to the service that is started, so the search only
fails for a reason. -/
theorem startService_blamed (hbase : base <+: application.events)
    (hstopped : (application.status service).isStopped = true)
    (hpath : ∀ other, application.status other = .Starting →
      TransGen (Needs application.needs) other service)
    (hmade : ∀ other, Made outcome base application.events (.doInitialize other) true →
      application.status other = .Running)
    (hreturned : ∀ event, ¬ Made outcome base application.events event false)
    (h : application.startService (.of outcome run) fuel service = some (false, after)) :
    Blamed outcome base application after service := by
  induction fuel generalizing application service after with
  | zero => cases h
  | succ fuel ih =>
    obtain ⟨required, ready, hready, hcases⟩ := startService_steps h
    have hbegun : base <+: (application.setStatus service .Starting).events := hbase
    -- the requirements before the one that fails have returned
    have hreturns : ∀ {requirements middle}, forEach (Application.satisfy
        (Application.startService (.of outcome run) fuel)) (application.setStatus service .Starting)
          requirements = some (true, middle) →
        ∀ event, ¬ Made outcome base middle.events event false :=
      fun hrequired => requirements_returned hbegun hreturned (fun _ _ _ => startService_returned)
        hrequired
    rcases hcases with ⟨rfl, -, rfl⟩ | ⟨rfl, houtcome, rfl⟩
    · obtain ⟨before, requirement, behind, middle, hsplit, hbefore, hfails⟩ := forEach_fails hready
      have hmoves := requirements_moves hbegun hbefore
      have hneeds : middle.needs = application.needs := hmoves.needs
      have hneed : middle.select requirement.m_feature requirement.m_implementation ∈
          application.needs service := by
        rw [← hneeds, Application.needs, hmoves.services]
        exact List.mem_map_of_mem (by rw [Application.setStatus, hsplit]; simp)
      rcases satisfy_steps hfails with
        ⟨hnone, -, rfl⟩ | ⟨selection, hselect, ⟨-, hfalse, -⟩ | ⟨hcycle, -, rfl⟩ |
          ⟨hstopped', hstarted⟩⟩
      · rw [hnone] at hneed
        exact ⟨service, .refl, .inl ⟨.inl hneed, fun event hmade => hreturns hbefore event hmade⟩⟩
      · cases hfalse
      · rw [hselect] at hneed
        exact ⟨service, .refl, .inl ⟨.inr ⟨service, .refl,
          .head' hneed (hmoves.reaches hpath hcycle)⟩,
          fun event hmade => hreturns hbefore event hmade⟩⟩
      · rw [hselect] at hneed
        have hpath' : ∀ other, middle.status other = .Starting →
            TransGen (Needs middle.needs) other selection := by
          intro other hother
          rw [hneeds]
          exact .tail' (hmoves.reaches hpath hother) hneed
        obtain ⟨other, hreach, hreason⟩ := ih (hbase.trans hmoves.events) hstopped' hpath'
          (fun _ => hmoves.called hstopped hmade) (hreturns hbefore) hstarted
        rw [hneeds] at hreach hreason
        exact ⟨other, .head hneed hreach, hreason⟩
    · have hmoves := requirements_moves hbegun hready
      refine ⟨service, .refl, .inr ⟨ready.events, hbase.trans hmoves.events, rfl, houtcome.symm,
        fun hearlier => ?_, hreturns hready⟩⟩
      have hrunning := hmoves.called hstopped hmade hearlier
      rw [(hmoves.starting service).mpr (Function.update_self _ _ _)] at hrunning
      cases hrunning

end Blamed

/-- The loop of `startServices` between two turns, behind the services `done`. -/
structure Turn (outcome : List Event → Bool) (begun application : Application)
    (done rest : List Nat) : Prop where
  moves : Moves outcome begun.events begun application
  m_services : begun.m_services = done ++ rest
  settled : Settled application
  running : ∀ service ∈ done, application.status service = .Running
  returned : ∀ event, ¬ Made outcome begun.events application.events event false

/-- A service that runs already was called once more and threw. -/
def FailsAgain (outcome : List Event → Bool) (application after : Application) (service : Nat) :
    Prop :=
  application.status service = .Running ∧
    outcome (application.events ++ [.doInitialize service]) = false ∧
    after = (application.called (.doInitialize service)).setStatus service .Stopped

/-- How the loop of `startServices` ends: behind all services, or in the turn of one that throws. -/
inductive Ended (outcome run : List Event → Bool) (begun after : Application) : Bool → Prop
  | returns (h : Turn outcome begun after begun.m_services []) : Ended outcome run begun after true
  | throws {application : Application} {done rest : List Nat} {service fuel : Nat}
      (h : Turn outcome begun application done (service :: rest))
      (hfails : application.startService (.of outcome run) fuel service = some (false, after)) :
      Ended outcome run begun after false

theorem Moves.status_cases {outcome : List Event → Bool} {base : List Event}
    {application after : Application} (h : Moves outcome base application after)
    (hstopped : ∀ service, (application.status service).isStopped = true) (service : Nat) :
    after.status service = .Running ∨ (after.status service).isStopped = true := by
  cases hstatus : after.status service with
  | Running => exact .inl rfl
  | Starting =>
    have hstopped := hstopped service
    rw [(h.starting service).mp hstatus] at hstopped
    cases hstopped
  | Stopped => exact .inr rfl
  | StoppedWithError => exact .inr rfl

namespace Turn

variable {outcome run : List Event → Bool} {begun application after : Application}
  {done rest : List Nat} {service fuel : Nat} {returns : Bool}

theorem refl (begun : Application) (hstopped : ∀ service, (begun.status service).isStopped = true) :
    Turn outcome begun begun [] begun.m_services where
  moves := .refl begun
  m_services := rfl
  settled service hrunning := by
    have hstopped := hstopped service
    rw [hrunning] at hstopped
    cases hstopped
  running _ hservice := absurd hservice List.not_mem_nil
  returned _ := not_made_self

theorem status_cases (h : Turn outcome begun application done rest)
    (hstopped : ∀ service, (begun.status service).isStopped = true) (service : Nat) :
    application.status service = .Running ∨ (application.status service).isStopped = true :=
  h.moves.status_cases hstopped service

/-- The services that run are those that were called with success. -/
theorem running_iff (h : Turn outcome begun application done rest)
    (hstopped : ∀ service, (begun.status service).isStopped = true) (service : Nat) :
    application.status service = .Running ↔
      Made outcome begun.events application.events (.doInitialize service) true := by
  constructor
  · intro hrunning
    refine (h.moves.running service hrunning).resolve_left fun hbegun => ?_
    have hstopped := hstopped service
    rw [hbegun] at hstopped
    cases hstopped
  · intro hmade
    exact (h.moves.initialized service hmade).resolve_left not_made_self

theorem next (h : Turn outcome begun application done (service :: rest))
    (hstopped : ∀ service, (begun.status service).isStopped = true)
    (hstart : application.startService (.of outcome run) fuel service = some (true, after)) :
    Turn outcome begun after (done ++ [service]) rest := by
  have hsplit : begun.m_services = done ++ [service] ++ rest := by rw [h.m_services]; simp
  have hmem : service ∈ application.m_services := by
    rw [h.moves.m_services, h.m_services]
    simp
  have hreturned := startService_returned h.moves.events h.returned hstart
  rcases h.status_cases hstopped service with hrunning | hidle
  · cases fuel with
    | zero => cases hstart
    | succ fuel =>
      rw [startService_again h.settled hrunning] at hstart
      obtain ⟨houtcome, rfl⟩ := Prod.mk.inj (Option.some.inj hstart)
      have hsame : (application.called (.doInitialize service)).setStatus service .Running =
          application.called (.doInitialize service) := by
        have hupdate : Function.update application.status service .Running = application.status := by
          rw [← hrunning]
          exact Function.update_eq_self _ _
        simp only [Application.setStatus, Application.called, hupdate]
      rw [if_pos houtcome, hsame] at hreturned ⊢
      have hmade : ∀ other, Made outcome begun.events
          (application.called (.doInitialize service)).events (.doInitialize other) true →
          application.status other = .Running := by
        intro other hmade
        rcases (made_concat h.moves.events).mp hmade with hearlier | ⟨hevent, -⟩
        · exact (h.running_iff hstopped other).mpr hearlier
        · obtain rfl := Event.doInitialize.inj hevent
          exact hrunning
      refine ⟨h.moves.trans ⟨rfl, rfl, rfl, List.prefix_append _ _, fun _ _ => rfl, fun _ => Iff.rfl,
        fun other hother => .inr (hmade other hother), fun _ => .inl, fun _ => id, fun _ _ => rfl,
        fun other => ?_⟩, hsplit, h.settled, fun other hother => ?_, hreturned⟩
      · simp [Application.called, List.count_append]
      · rcases List.mem_append.mp hother with hdone | hlast
        · exact h.running other hdone
        · rw [List.mem_singleton.mp hlast]
          exact hrunning
  · obtain ⟨hmoves, hrunning⟩ := startService_moves h.moves.events hmem hidle hstart
    refine ⟨h.moves.trans hmoves, hsplit, startService_settled h.settled hidle hstart,
      fun other hother => ?_, hreturned⟩
    rcases List.mem_append.mp hother with hdone | hlast
    · have hother := h.running other hdone
      exact (hmoves.busy other (by rw [hother]; rfl)).trans hother
    · rw [List.mem_singleton.mp hlast]
      exact hrunning

theorem fails (h : Turn outcome begun application done (service :: rest))
    (hstopped : ∀ service, (begun.status service).isStopped = true)
    (hstart : application.startService (.of outcome run) fuel service = some (false, after)) :
    (Moves outcome begun.events begun after ∧ Blamed outcome begun.events begun after service) ∨
      FailsAgain outcome application after service := by
  rcases h.status_cases hstopped service with hrunning | hidle
  · cases fuel with
    | zero => cases hstart
    | succ fuel =>
      rw [startService_again h.settled hrunning] at hstart
      obtain ⟨houtcome, rfl⟩ := Prod.mk.inj (Option.some.inj hstart)
      rw [if_neg (by rw [houtcome]; simp)]
      exact .inr ⟨hrunning, houtcome, rfl⟩
  · have hpath : ∀ other, application.status other = .Starting →
        TransGen (Needs application.needs) other service := by
      intro other hstarting
      rw [h.moves.starting] at hstarting
      have hstopped := hstopped other
      rw [hstarting] at hstopped
      cases hstopped
    have hmem : service ∈ application.m_services := by
      rw [h.moves.m_services, h.m_services]
      simp
    have hblamed := startService_blamed h.moves.events hidle hpath
      (fun other => (h.running_iff hstopped other).mpr) h.returned hstart
    rw [Blamed, h.moves.needs] at hblamed
    exact .inl ⟨h.moves.trans (startService_moves h.moves.events hmem hidle hstart).1, hblamed⟩

theorem next_eq (h : Turn outcome begun application (done ++ [service]) rest)
    (hnodup : begun.m_services.Nodup) : application.next service = rest.head? := by
  have hservices : application.m_services = done ++ service :: rest := by
    rw [h.moves.m_services, h.m_services]
    simp
  exact App.next_eq (h.moves.m_services ▸ hnodup) hservices

/-- Each turn brings the loop on by a service, or ends it. -/
theorem ends (h : Turn outcome begun application done rest) (hnodup : begun.m_services.Nodup)
    (hstopped : ∀ service, (begun.status service).isStopped = true)
    (hservices : application.startServices (.of outcome run) fuel rest.head? =
      some (returns, after)) :
    Ended outcome run begun after returns := by
  induction fuel generalizing application done rest with
  | zero =>
    cases rest with
    | nil =>
      obtain ⟨rfl, rfl⟩ := Prod.mk.inj (Option.some.inj hservices)
      have hall : begun.m_services = done := h.m_services.trans (List.append_nil done)
      exact .returns (hall ▸ h)
    | cons service rest => cases hservices
  | succ fuel ih =>
    cases rest with
    | nil =>
      obtain ⟨rfl, rfl⟩ := Prod.mk.inj (Option.some.inj hservices)
      have hall : begun.m_services = done := h.m_services.trans (List.append_nil done)
      exact .returns (hall ▸ h)
    | cons service rest =>
      rcases startServices_turn hservices with ⟨hfails, rfl⟩ | ⟨middle, hstarted, hrest⟩
      · exact .throws h hfails
      · have hnext := h.next hstopped hstarted
        rw [hnext.next_eq hnodup] at hrest
        exact ih hnext hrest

theorem total (h : Turn outcome begun application done rest) (hnodup : begun.m_services.Nodup)
    (hstopped : ∀ service, (begun.status service).isStopped = true)
    (hfuel : begun.m_services.length + rest.length ≤ fuel) :
    ∃ returns after, application.startServices (.of outcome run) fuel rest.head? =
      some (returns, after) := by
  induction rest generalizing application done fuel with
  | nil => exact ⟨true, application, by cases fuel <;> rfl⟩
  | cons service rest ih =>
    obtain ⟨fuel, rfl⟩ : ∃ rest, fuel = rest + 1 := by
      cases fuel with
      | zero => simp at hfuel
      | succ fuel => exact ⟨fuel, rfl⟩
    rw [List.length_cons] at hfuel
    have hmem : service ∈ application.m_services := by
      rw [h.moves.m_services, h.m_services]
      simp
    have hstatus : application.status service ≠ .Starting := by
      rcases h.status_cases hstopped service with hrunning | hidle
      · rw [hrunning]
        simp
      · intro hstarting
        rw [hstarting] at hidle
        cases hidle
    have hwaiting : application.waiting ≤ begun.m_services.length := by
      rw [← h.moves.m_services]
      exact List.countP_le_length
    have hsearch : ∃ returns after, application.startService (.of outcome run) fuel service =
        some (returns, after) := startService_total fuel application service hmem hstatus (by omega)
    obtain ⟨returns, middle, hstarted⟩ := hsearch
    rw [List.head?_cons, Application.startServices, hstarted]
    cases returns with
    | false => exact ⟨false, middle, rfl⟩
    | true =>
      have hnext := h.next hstopped hstarted
      rw [Result.andThen, hnext.next_eq hnodup]
      exact ih hnext (by omega)

end Turn

def Application.begin (application : Application) : Application :=
  { application with m_statusFlags := .Starting }

section Started

variable {outcome run : List Event → Bool} {application middle after : Application}
  {service other fuel : Nat} {returns : Bool} {done rest : List Nat}

theorem idle_nodup (services : Nat → Service) (attached : List Nat) (failed : Bool)
    (withError : Nat → Bool) (events : List Event) :
    (idle services attached failed withError events).m_services.Nodup :=
  (loop_starting services attached).listed.nodup

theorem idle_stopped (services : Nat → Service) (attached : List Nat) (failed : Bool)
    (withError : Nat → Bool) (events : List Event) (service : Nat) :
    ((idle services attached failed withError events).status service).isStopped = true := by
  rw [idle]
  cases hwithError : withError service <;> simp [hwithError, Status.isStopped]

theorem started_eq {ended : Application} (h : application.begin.startServices (.of outcome run) fuel
      application.m_services.head? = some (returns, ended)) :
    application.started (.of outcome run) fuel = some (returns, { ended with
      m_statusFlags := if returns then .Running else ended.m_statusFlags }) := by
  rw [Application.begin] at h
  rw [Application.started]
  simp only [h]
  cases returns <;> rfl

theorem reach_mem (hmem : service ∈ application.m_services)
    (h : ReflTransGen (Needs application.needs) service other) : other ∈ application.m_services := by
  rcases h.cases_tail with rfl | ⟨before, -, hneed⟩
  · exact hmem
  · obtain ⟨requirement, -, hselect⟩ := List.mem_map.mp hneed
    exact Application.select_mem hselect

/-- A start-up calls a service when what is selected for its requirements runs, and it throws for an
unmet requirement, a cycle, or a call that throws. -/
structure InOrder (outcome run : List Event → Bool) (fuel : Nat) (application after : Application)
    (returns : Bool) : Prop where
  called : ∀ history service, application.events <+: history →
    history ++ [.doInitialize service] <+: after.events →
      ∃ calling, LoopCalls (.of outcome run) fuel application.begin application.m_services.head?
        calling service ∧ calling.events = history ++ [.doInitialize service]
  ready : ∀ calling service, LoopCalls (.of outcome run) fuel application.begin
    application.m_services.head? calling service → RequirementsRunning calling service
  throws_iff : returns = false ↔ ∃ service ∈ application.m_services,
    Unmet application.needs service ∨ LeadsToCycle application.needs service ∨
      Made outcome application.events after.events (.doInitialize service) false
  throwing : ∀ service ∈ application.m_services,
    (∀ history, outcome (history ++ [.doInitialize service]) = false) → returns = false

/-- Behind a start-up that returns, all services were called with success. -/
theorem Turn.all_called (h : Turn outcome application.begin after application.m_services [])
    (hstopped : ∀ service, (application.status service).isStopped = true) :
    ∀ service ∈ application.m_services, ¬ Unmet application.needs service ∧
      ¬ LeadsToCycle application.needs service ∧
      Made outcome application.events after.events (.doInitialize service) true := by
  intro service hmem
  have hrunning := h.running service hmem
  have hneeds : after.needs = application.needs := h.moves.needs
  have hgrounded := (h.settled service hrunning).1
  rw [hneeds] at hgrounded
  exact ⟨hgrounded.not_unmet, hgrounded.not_leadsToCycle,
    (h.running_iff hstopped service).mp hrunning⟩

theorem Turn.throws (h : Turn outcome application.begin middle done (service :: rest))
    (hstopped : ∀ service, (application.status service).isStopped = true)
    (hstart : middle.startService (.of outcome run) fuel service = some (false, after)) :
    ∃ service ∈ application.m_services,
      Unmet application.needs service ∨ LeadsToCycle application.needs service ∨
        Made outcome application.events after.events (.doInitialize service) false := by
  have hmem : service ∈ application.m_services := by
    have hsplit : application.m_services = done ++ service :: rest := h.m_services
    rw [hsplit]
    simp
  rcases h.fails hstopped hstart with ⟨-, other, hreach, hreason⟩ | ⟨-, houtcome, rfl⟩
  · refine ⟨other, reach_mem hmem hreach, ?_⟩
    rcases hreason with ⟨hunmet | hcycle, -⟩ | ⟨history, hbase, hevents, houtcome, -, -⟩
    · exact .inl hunmet
    · exact .inr (.inl hcycle)
    · rw [hevents] at houtcome ⊢
      exact .inr (.inr ⟨history, hbase, List.prefix_refl _, houtcome⟩)
  · exact ⟨service, hmem, .inr (.inr ⟨middle.events, h.moves.events, List.prefix_refl _, houtcome⟩)⟩

theorem startServices_ends (hnodup : application.m_services.Nodup)
    (hstopped : ∀ service, (application.status service).isStopped = true)
    (hfuel : application.m_services.length + application.m_services.length ≤ fuel) :
    ∃ returns ended, application.begin.startServices (.of outcome run) fuel
        application.m_services.head? = some (returns, ended) ∧
      Ended outcome run application.begin ended returns := by
  have hturn : Turn outcome application.begin application.begin [] application.m_services :=
    .refl application.begin hstopped
  have htotal : ∃ returns ended, application.begin.startServices (.of outcome run) fuel
      application.m_services.head? = some (returns, ended) := hturn.total hnodup hstopped hfuel
  obtain ⟨returns, ended, hended⟩ := htotal
  exact ⟨returns, ended, hended, hturn.ends hnodup hstopped hended⟩

/-- A start-up of attached services ends, and it follows their requirements. -/
theorem started_inOrder (outcome run : List Event → Bool) (services : Nat → Service)
    (attached : List Nat) (failed : Bool) (withError : Nat → Bool) (events : List Event) :
    ∃ enough, ∀ fuel, enough ≤ fuel → ∃ returns after,
      (idle services attached failed withError events).started (.of outcome run) fuel =
        some (returns, after) ∧
      InOrder outcome run fuel (idle services attached failed withError events) after returns := by
  have hstopped := idle_stopped services attached failed withError events
  have hnodup := idle_nodup services attached failed withError events
  generalize idle services attached failed withError events = application at hstopped hnodup
  refine ⟨application.m_services.length + application.m_services.length, fun fuel hfuel => ?_⟩
  obtain ⟨returns, ended, hended, hends⟩ := @startServices_ends outcome run _ _ hnodup hstopped hfuel
  refine ⟨returns, _, started_eq hended, fun history service => startServices_calls hended,
    fun calling service => LoopCalls.requirementsRunning, ?_, fun service hmem hthrows => ?_⟩
  · cases hends with
    | returns hall =>
      refine iff_of_false (by simp) ?_
      rintro ⟨service, hmem, hreason⟩
      obtain ⟨hmet, hcycle, -⟩ := hall.all_called hstopped service hmem
      rcases hreason with hunmet | hleads | hmade
      · exact hmet hunmet
      · exact hcycle hleads
      · exact hall.returned _ hmade
    | throws hmiddle hfails => exact iff_of_true rfl (hmiddle.throws hstopped hfails)
  · cases hends with
    | returns hall =>
      obtain ⟨-, -, history, -, -, houtcome⟩ := hall.all_called hstopped service hmem
      rw [hthrows history] at houtcome
      cases houtcome
    | throws _ _ => rfl

end Started

end Coffee.App
