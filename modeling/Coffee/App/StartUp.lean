import Coffee.App.Application

/-! # The start of the services

What each call of the start-up can change, and when it starts every service once.
-/

namespace Coffee.App

/-- What the start-up never undoes: attached services stay in their order, and calls are made. -/
structure Grows (application after : Application) : Prop where
  m_statusFlags : after.m_statusFlags = application.m_statusFlags
  services : after.services = application.services
  m_services : application.m_services.Sublist after.m_services
  nodup : application.m_services.Nodup → after.m_services.Nodup
  events : application.events.Sublist after.events

namespace Grows

variable {application after further : Application}

theorem refl (application : Application) : Grows application application :=
  ⟨rfl, rfl, List.Sublist.refl _, id, List.Sublist.refl _⟩

theorem trans (h : Grows application after) (h' : Grows after further) :
    Grows application further :=
  ⟨h'.m_statusFlags.trans h.m_statusFlags, h'.services.trans h.services,
    h.m_services.trans h'.m_services, fun hnodup => h'.nodup (h.nodup hnodup),
    h.events.trans h'.events⟩

theorem setStatus (application : Application) (service : Nat) (status : Status) :
    Grows application (application.setStatus service status) :=
  ⟨rfl, rfl, List.Sublist.refl _, id, List.Sublist.refl _⟩

theorem called (application : Application) (event : Event) :
    Grows application (application.called event) :=
  ⟨rfl, rfl, List.Sublist.refl _, id, List.sublist_append_left _ _⟩

theorem count_le (h : Grows application after) (event : Event) :
    application.events.count event ≤ after.events.count event := h.events.count_le event

end Grows

theorem Application.not_mem_of_defined {application : Application} {service : Nat}
    (h : application.defined service = false) : service ∉ application.m_services := by
  intro hmem
  have hany := List.any_eq_false.mp h service hmem
  simp at hany

theorem Grows.insert {application : Application} {service : Nat}
    (h : application.defined service = false) : Grows application (application.insert service) where
  m_statusFlags := rfl
  services := rfl
  m_services := List.sublist_orderedInsert _ _
  nodup hnodup := by
    have hperm := List.perm_orderedInsert
      (fun a b => (application.feature a).value < (application.feature b).value) service
      application.m_services
    exact hperm.nodup_iff.mpr
      (List.nodup_cons.mpr ⟨Application.not_mem_of_defined h, hnodup⟩)
  events := List.Sublist.refl _

section Growth

variable {behaviour : Behaviour} {start : Application → Nat → Result}

theorem Result.andThen_eq_some {result : Result} {next : Application → Result}
    {after : Application} (h : result.andThen next = some (true, after)) :
    ∃ middle, result = some (true, middle) ∧ next middle = some (true, after) := by
  rcases result with _ | ⟨_ | _, middle⟩
  · cases h
  · cases h
  · exact ⟨middle, rfl, h⟩

def Result.Grows (application : Application) (result : Result) : Prop :=
  ∀ returns after, result = some (returns, after) → App.Grows application after

def Result.Keeps (P : Application → Prop) (result : Result) : Prop :=
  ∀ returns after, result = some (returns, after) → P after

/-- What no part of a start-up breaks. -/
structure Stable (P : Application → Prop) : Prop where
  setStatus : ∀ application service status, P application → P (application.setStatus service status)
  called : ∀ application event, P application → P (application.called event)
  insert : ∀ application service, application.defined service = false → P application →
    P (application.insert service)

theorem stable_grows (begun : Application) : Stable (Grows begun) where
  setStatus application service status h := h.trans (.setStatus application service status)
  called application event h := h.trans (.called application event)
  insert _ _ hdefined h := h.trans (.insert hdefined)

variable {P : Application → Prop}

theorem Result.Keeps.of_some {application : Application} {returns : Bool} (h : P application) :
    Result.Keeps P (some (returns, application)) := by
  intro returns' after heq
  obtain ⟨-, rfl⟩ := Prod.mk.inj (Option.some.inj heq)
  exact h

theorem Result.Keeps.andThen {result : Result} {next : Application → Result} (h : result.Keeps P)
    (hnext : ∀ application, P application → (next application).Keeps P) :
    (result.andThen next).Keeps P := by
  intro returns after hafter
  match result, h, hafter with
  | none, _, hafter => cases hafter
  | some (false, middle), h, hafter => exact h returns after hafter
  | some (true, middle), h, hafter => exact hnext middle (h true middle rfl) _ _ hafter

theorem forEach_keeps {α : Type} {body : Application → α → Result}
    (hbody : ∀ application a, P application → (body application a).Keeps P)
    {application : Application} (h : P application) (as : List α) :
    (forEach body application as).Keeps P := by
  induction as generalizing application with
  | nil => exact .of_some h
  | cons a as ih => exact (hbody application a h).andThen fun middle hmiddle => ih hmiddle

theorem satisfy_keeps
    (hstart : ∀ application service, P application → (start application service).Keeps P)
    {application : Application} (h : P application) (requirement : Requirement) :
    (application.satisfy start requirement).Keeps P := by
  rw [Application.satisfy]
  split
  · exact .of_some h
  · next selection hselect =>
    split
    · exact .of_some h
    · exact .of_some h
    · exact hstart application selection h
    · exact hstart application selection h

theorem attach_keeps (hstable : Stable P)
    (hstart : ∀ application service, P application → (start application service).Keeps P)
    {application : Application} (h : P application) (service : Nat) :
    (application.attach start service).Keeps P := by
  rw [Application.attach]
  split
  · exact .of_some h
  · next hdefined =>
    rw [Bool.not_eq_true] at hdefined
    split
    · exact hstart _ service (hstable.insert application service hdefined h)
    · exact .of_some (hstable.insert application service hdefined h)

theorem doInitialize_keeps (hstable : Stable P)
    (hstart : ∀ application service, P application → (start application service).Keeps P)
    {application : Application} {service : Nat}
    (h : P (application.called (.doInitialize service))) :
    (application.doInitialize behaviour start service).Keeps P :=
  (forEach_keeps (fun _ _ hmiddle => attach_keeps hstable hstart hmiddle _) h _).andThen
    fun _ hmiddle => .of_some hmiddle

theorem startService_cases {fuel : Nat} {application after : Application} {service : Nat}
    {returns : Bool}
    (h : application.startService behaviour (fuel + 1) service = some (returns, after)) :
    ∃ middle, (forEach (Application.satisfy (Application.startService behaviour fuel))
        (application.setStatus service .Starting)
        (application.services service).m_requirements).andThen
          (Application.doInitialize behaviour (Application.startService behaviour fuel) service) =
            some (returns, middle) ∧
      after = middle.setStatus service (if returns then .Running else .Stopped) := by
  rw [Application.startService] at h
  split at h
  · cases h
  · next middle hmiddle =>
    obtain ⟨rfl, rfl⟩ := Prod.mk.inj (Option.some.inj h)
    exact ⟨middle, hmiddle, rfl⟩
  · next middle hmiddle =>
    obtain ⟨rfl, rfl⟩ := Prod.mk.inj (Option.some.inj h)
    exact ⟨middle, hmiddle, rfl⟩

theorem startService_keeps (hstable : Stable P) (behaviour : Behaviour) (fuel : Nat)
    {application : Application} (h : P application) (service : Nat) :
    (application.startService behaviour fuel service).Keeps P := by
  induction fuel generalizing application service with
  | zero => exact fun _ _ h => by cases h
  | succ fuel ih =>
    intro returns after hafter
    obtain ⟨middle, hmiddle, rfl⟩ := startService_cases hafter
    have hrequired := forEach_keeps
      (fun _ requirement h => satisfy_keeps (fun _ service h => ih h service) h requirement)
      (hstable.setStatus application service .Starting h) (application.services service).m_requirements
    have hcalls := hrequired.andThen fun ready hready =>
      @doInitialize_keeps behaviour _ P hstable (fun _ service h => ih h service) _ service
        (hstable.called ready _ hready)
    exact hstable.setStatus middle service _ (hcalls returns middle hmiddle)

theorem startService_grows (behaviour : Behaviour) (fuel : Nat) (application : Application)
    (service : Nat) : (application.startService behaviour fuel service).Grows application :=
  startService_keeps (stable_grows application) behaviour fuel (.refl application) service

theorem requirements_grows (behaviour : Behaviour) (fuel : Nat) (application : Application)
    (requirements : List Requirement) :
    (forEach (Application.satisfy (Application.startService behaviour fuel)) application
      requirements).Grows application :=
  forEach_keeps (fun _ requirement h => satisfy_keeps
    (fun _ service h => startService_keeps (stable_grows application) behaviour fuel h service) h
    requirement) (Grows.refl application) requirements

theorem doInitialize_grows (behaviour : Behaviour) (fuel : Nat) (service : Nat)
    (application : Application) :
    (application.doInitialize behaviour (Application.startService behaviour fuel) service).Grows
      (application.called (.doInitialize service)) :=
  doInitialize_keeps (stable_grows _)
    (fun _ service h => startService_keeps (stable_grows _) behaviour fuel h service) (Grows.refl _)

theorem startService_called {fuel : Nat} {application after : Application} {service : Nat}
    (h : application.startService behaviour fuel service = some (true, after)) :
    application.events.count (.doInitialize service) + 1 ≤
      after.events.count (.doInitialize service) := by
  cases fuel with
  | zero => cases h
  | succ fuel =>
    obtain ⟨middle, hmiddle, rfl⟩ := startService_cases h
    have hrequired := requirements_grows behaviour fuel (application.setStatus service .Starting)
      (application.services service).m_requirements
    obtain ⟨ready, hready, hmiddle⟩ := Result.andThen_eq_some hmiddle
    have hcount := (hrequired true ready hready).count_le (.doInitialize service)
    have hcalled := (doInitialize_grows behaviour fuel service ready true middle hmiddle).count_le
      (.doInitialize service)
    have hone : (ready.called (.doInitialize service)).events.count (.doInitialize service) =
        ready.events.count (.doInitialize service) + 1 := by
      simp [Application.called]
    rw [hone] at hcalled
    exact Nat.le_trans (Nat.succ_le_succ hcount) hcalled

theorem startServices_keeps (hstable : Stable P) (behaviour : Behaviour) (fuel : Nat)
    {application : Application} (h : P application) (iterator : Option Nat) :
    (application.startServices behaviour fuel iterator).Keeps P := by
  induction fuel generalizing application iterator with
  | zero =>
    cases iterator with
    | none => exact .of_some h
    | some service => exact fun _ _ h => by cases h
  | succ fuel ih =>
    cases iterator with
    | none => exact .of_some h
    | some service =>
      exact (startService_keeps hstable behaviour fuel h service).andThen fun middle hmiddle =>
        ih hmiddle (middle.next service)

theorem startServices_grows (behaviour : Behaviour) (fuel : Nat) (application : Application)
    (iterator : Option Nat) :
    (application.startServices behaviour fuel iterator).Grows application :=
  startServices_keeps (stable_grows application) behaviour fuel (.refl application) iterator

theorem Grows.behind {application after : Application} (h : Grows application after)
    {before behind : List Nat} {service : Nat}
    (hservices : application.m_services = before ++ service :: behind) :
    ∃ before' behind', after.m_services = before' ++ service :: behind' ∧ behind ⊆ behind' := by
  have hsub := h.m_services
  rw [hservices] at hsub
  obtain ⟨l₁, l₂, hafter, -, htail⟩ := List.append_sublist_iff.mp hsub
  obtain ⟨l₃, l₄, rfl, hmem, hbehind⟩ := List.cons_sublist_iff.mp htail
  obtain ⟨l₅, l₆, rfl⟩ := List.append_of_mem hmem
  refine ⟨l₁ ++ l₅, l₆ ++ l₄, by simp [hafter], fun other hother => ?_⟩
  exact List.mem_append_right _ (hbehind.subset hother)

theorem next_eq {application : Application} {before behind : List Nat} {service : Nat}
    (hnodup : application.m_services.Nodup)
    (hservices : application.m_services = before ++ service :: behind) :
    application.next service = behind.head? := by
  rw [hservices] at hnodup
  have hbefore : ∀ other ∈ before, decide (other ≠ service) = true := fun other hother =>
    decide_eq_true ((List.nodup_append.mp hnodup).2.2 other hother service List.mem_cons_self)
  rw [Application.next, hservices, List.dropWhile_append_of_pos hbefore,
    List.dropWhile_cons_of_neg (by simp), List.tail_cons]

theorem startServices_called {fuel : Nat} {application after : Application} {service : Nat}
    {before behind : List Nat} (hnodup : application.m_services.Nodup)
    (hservices : application.m_services = before ++ service :: behind)
    (h : application.startServices behaviour fuel (some service) = some (true, after)) :
    ∀ other ∈ service :: behind, application.events.count (.doInitialize other) + 1 ≤
      after.events.count (.doInitialize other) := by
  induction fuel generalizing application service before behind with
  | zero => cases h
  | succ fuel ih =>
    obtain ⟨middle, hstarted, hrest⟩ := Result.andThen_eq_some h
    have hmiddle := startService_grows behaviour fuel application service true middle hstarted
    have hafter := startServices_grows behaviour fuel middle _ true after hrest
    intro other hother
    rcases List.mem_cons.mp hother with rfl | hother
    · exact (startService_called hstarted).trans (hafter.count_le _)
    · obtain ⟨before', behind', hservices', hsubset⟩ := hmiddle.behind hservices
      rw [next_eq (hmiddle.nodup hnodup) hservices'] at hrest
      have hmem := hsubset hother
      cases behind' with
      | nil => cases hmem
      | cons first behind' =>
        have hsplit : middle.m_services = (before' ++ [service]) ++ first :: behind' := by
          simp [hservices']
        have hcount := ih (hmiddle.nodup hnodup) hsplit hrest other hmem
        exact (Nat.succ_le_succ (hmiddle.count_le _)).trans hcount

end Growth

end Coffee.App
