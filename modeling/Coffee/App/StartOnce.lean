import Coffee.App.StartUp
import Mathlib.Data.List.Count

/-! # Services that are started once

A start-up starts every service once just when no service has to start another one that stands behind
it, as long as services that are attached meanwhile stand behind the one that attaches them.
-/

namespace Coffee.App

open Coffee.Basis

def Result.continues : Result → Option Application
  | some (true, application) => some application
  | _ => none

/-- Each turn of the loop of `startServices` meets `P` in the state in which it begins. -/
def EachTurn (behaviour : Behaviour) (P : Application → Nat → Prop) :
    Nat → Application → Option Nat → Prop
  | fuel + 1, application, some service => P application service ∧
    ∀ after ∈ (application.startService behaviour fuel service).continues,
      EachTurn behaviour P fuel after (after.next service)
  | _, _, _ => True

instance EachTurn.decidable (behaviour : Behaviour) (P : Application → Nat → Prop)
    [∀ application service, Decidable (P application service)] :
    (fuel : Nat) → (application : Application) → (iterator : Option Nat) →
      Decidable (EachTurn behaviour P fuel application iterator)
  | fuel + 1, application, some service =>
    have : ∀ after, Decidable (EachTurn behaviour P fuel after (after.next service)) :=
      fun after => EachTurn.decidable behaviour P fuel after (after.next service)
    inferInstanceAs (Decidable (P application service ∧
      ∀ after ∈ (application.startService behaviour fuel service).continues,
        EachTurn behaviour P fuel after (after.next service)))
  | 0, _, _ => .isTrue trivial
  | _ + 1, _, none => .isTrue trivial

/-- The services that are selected for the requirements run already. -/
def RequirementsRunning (application : Application) (service : Nat) : Prop :=
  ∀ requirement ∈ (application.services service).m_requirements,
    ∀ selection ∈ application.select requirement.m_feature requirement.m_implementation,
      application.status selection = .Running

instance (application : Application) (service : Nat) :
    Decidable (RequirementsRunning application service) :=
  inferInstanceAs (Decidable (∀ requirement ∈ (application.services service).m_requirements,
    ∀ selection ∈ application.select requirement.m_feature requirement.m_implementation,
      application.status selection = .Running))

def Application.calling (application : Application) (service : Nat) : Application :=
  (application.setStatus service .Starting).called (.doInitialize service)

/-- The new services that `doInitialize` attaches have no feature that comes before its own. -/
def AttachesBehind (behaviour : Behaviour) (application : Application) (service : Nat) : Prop :=
  ∀ other ∈ (behaviour.doInitialize (application.calling service) service).1,
    application.defined other = false →
      (application.feature service).value ≤ (application.feature other).value

instance (behaviour : Behaviour) (application : Application) (service : Nat) :
    Decidable (AttachesBehind behaviour application service) :=
  inferInstanceAs (Decidable (∀ other ∈ (behaviour.doInitialize (application.calling service)
    service).1, application.defined other = false →
      (application.feature service).value ≤ (application.feature other).value))

/-- Each attached service was called once, and the stop calls each service as often as the start. -/
structure StartsOnce (behaviour : Behaviour) (application : Application) : Prop where
  initialized : ∀ service ∈ application.m_services,
    application.events.count (.doInitialize service) = 1
  stopped : ∀ service, (application.stop behaviour).2.events.count (.doStop service) =
    application.events.count (.doInitialize service)

/-- The services in the order of the multimap, with `front` as the first of them. -/
structure Listed (application : Application) (front : List Nat) : Prop where
  sorted : application.m_services.Pairwise fun a b =>
    (application.feature a).value ≤ (application.feature b).value
  nodup : application.m_services.Nodup
  front_prefix : front <+: application.m_services

section Listed

variable {application : Application} {front : List Nat} {service : Nat}

theorem pairwise_orderedInsert {f : Nat → Nat} {services : List Nat}
    (h : services.Pairwise fun a b => f a ≤ f b) (service : Nat) :
    (services.orderedInsert (fun a b => f a < f b) service).Pairwise fun a b => f a ≤ f b := by
  induction services with
  | nil => exact List.pairwise_singleton _ _
  | cons first services ih =>
    obtain ⟨hfirst, hrest⟩ := List.pairwise_cons.mp h
    rw [List.orderedInsert]
    split
    · next hlt =>
      refine List.pairwise_cons.mpr ⟨fun other hother => ?_, h⟩
      rcases List.mem_cons.mp hother with rfl | hother
      · exact hlt.le
      · exact hlt.le.trans (hfirst other hother)
    · next hge =>
      refine List.pairwise_cons.mpr ⟨fun other hother => ?_, ih hrest⟩
      rcases (List.mem_orderedInsert _).mp hother with rfl | hother
      · exact Nat.not_lt.mp hge
      · exact hfirst other hother

theorem orderedInsert_append {f : Nat → Nat} {front rest : List Nat}
    (h : ∀ other ∈ front, f other ≤ f service) :
    (front ++ rest).orderedInsert (fun a b => f a < f b) service =
      front ++ rest.orderedInsert (fun a b => f a < f b) service := by
  induction front with
  | nil => rfl
  | cons first front ih =>
    have hfirst := h first List.mem_cons_self
    rw [List.cons_append, List.orderedInsert, if_neg (Nat.not_lt.mpr hfirst),
      ih fun other hother => h other (List.mem_cons_of_mem _ hother), List.cons_append]

theorem Listed.register (h : Listed application front)
    (hfront : application.defined service = false → ∀ other ∈ front,
      (application.feature other).value ≤ (application.feature service).value) :
    ∃ m_services, application.register service = { application with m_services } ∧
      Listed { application with m_services } front ∧ application.m_services ⊆ m_services := by
  rw [Application.register]
  split
  · exact ⟨application.m_services, rfl, h, List.Subset.refl _⟩
  · next hdefined =>
    rw [Bool.not_eq_true] at hdefined
    have hgrows := Grows.insert hdefined
    refine ⟨_, rfl, ⟨pairwise_orderedInsert h.sorted service, hgrows.nodup h.nodup, ?_⟩,
      hgrows.m_services.subset⟩
    obtain ⟨rest, hrest⟩ := h.front_prefix
    rw [← hrest]
    exact ⟨_, (orderedInsert_append (hfront hdefined)).symm⟩

theorem defined_of_subset {m_services : List Nat} (h : application.m_services ⊆ m_services)
    (hdefined : ({ application with m_services } : Application).defined service = false) :
    application.defined service = false := by
  rw [Application.defined, List.any_eq_false] at hdefined ⊢
  exact fun other hother => hdefined other (h hother)

theorem Listed.foldl_register (h : Listed application front) (attached : List Nat)
    (hfront : ∀ service ∈ attached, application.defined service = false → ∀ other ∈ front,
      (application.feature other).value ≤ (application.feature service).value) :
    ∃ m_services, attached.foldl Application.register application =
        { application with m_services } ∧ Listed { application with m_services } front := by
  induction attached generalizing application with
  | nil => exact ⟨application.m_services, rfl, h⟩
  | cons service attached ih =>
    obtain ⟨m_services, hregister, hlisted, hsubset⟩ :=
      h.register (hfront service List.mem_cons_self)
    obtain ⟨m_services', hfoldl, hlisted'⟩ := ih hlisted fun other hother hdefined =>
      hfront other (List.mem_cons_of_mem _ hother) (defined_of_subset hsubset hdefined)
    exact ⟨m_services', by rw [List.foldl_cons, hregister, hfoldl], hlisted'⟩

theorem forEach_attach (start : Application → Nat → Result) (attached : List Nat)
    (hflags : application.m_statusFlags ≠ .Running) :
    forEach (Application.attach start) application attached =
      some (true, attached.foldl Application.register application) := by
  induction attached generalizing application with
  | nil => rfl
  | cons service attached ih =>
    have hattach : application.attach start service = some (true, application.register service) := by
      rw [Application.attach, Application.register, if_neg hflags]
      split <;> rfl
    have hflags' : (application.register service).m_statusFlags = application.m_statusFlags := by
      rw [Application.register]
      split <;> rfl
    rw [forEach, hattach, Result.andThen, ih (hflags' ▸ hflags), List.foldl_cons]

end Listed

section Turn

variable {behaviour : Behaviour} {application after : Application} {service : Nat} {fuel : Nat}

theorem forEach_satisfy (start : Application → Nat → Result) (requirements : List Requirement)
    (h : ∀ requirement ∈ requirements,
      ∀ selection ∈ application.select requirement.m_feature requirement.m_implementation,
        application.status selection = .Running) :
    forEach (Application.satisfy start) application requirements = some (true, application) ∨
      forEach (Application.satisfy start) application requirements = some (false, application) := by
  induction requirements with
  | nil => exact .inl rfl
  | cons requirement requirements ih =>
    have hrest := ih fun other hother => h other (List.mem_cons_of_mem _ hother)
    rw [forEach, Application.satisfy]
    cases hselect : application.select requirement.m_feature requirement.m_implementation with
    | none => exact .inr rfl
    | some selection =>
      have hrunning := h requirement List.mem_cons_self selection hselect
      simp only [hrunning]
      exact hrest

/-- A service whose requirements run is called once, and no other service. -/
theorem startService_turn (hflags : application.m_statusFlags ≠ .Running)
    (hservice : application.status service ≠ .Running)
    (hrequirements : RequirementsRunning application service)
    (h : application.startService behaviour fuel service = some (true, after)) :
    after = ((behaviour.doInitialize (application.calling service) service).1.foldl
      Application.register (application.calling service)).setStatus service .Running := by
  cases fuel with
  | zero => cases h
  | succ fuel =>
    obtain ⟨middle, hmiddle, rfl⟩ := startService_cases h
    have hselected : ∀ requirement ∈ (application.services service).m_requirements,
        ∀ selection ∈ (application.setStatus service .Starting).select requirement.m_feature
          requirement.m_implementation,
        (application.setStatus service .Starting).status selection = .Running := by
      intro requirement hrequirement selection hselection
      have hrunning := hrequirements requirement hrequirement selection hselection
      have hne : selection ≠ service := by
        rintro rfl
        exact hservice hrunning
      exact (Function.update_of_ne hne _ _).trans hrunning
    rcases forEach_satisfy (Application.startService behaviour fuel) _ hselected with hall | hall
    · rw [hall, Result.andThen, Application.doInitialize] at hmiddle
      simp only at hmiddle
      rw [forEach_attach _ _ (by exact hflags)] at hmiddle
      obtain ⟨-, rfl⟩ := Prod.mk.inj (Option.some.inj hmiddle)
      rfl
    · rw [hall] at hmiddle
      cases hmiddle

/-- The loop behind the services `done`: these run and were called once, and the others never. -/
structure Loop (application : Application) (done rest : List Nat) : Prop where
  m_services : application.m_services = done ++ rest
  listed : Listed application done
  m_statusFlags : application.m_statusFlags = .Starting
  running : ∀ service ∈ done, application.status service = .Running ∧
    application.events.count (.doInitialize service) = 1
  waiting : ∀ service ∉ done, application.status service = .Stopped ∧
    application.events.count (.doInitialize service) = 0
  not_stopped : ∀ service, application.events.count (.doStop service) = 0

theorem Loop.turn {done rest : List Nat} (h : Loop application done (service :: rest))
    (hrequirements : RequirementsRunning application service)
    (hattaches : AttachesBehind behaviour application service)
    (hstart : application.startService behaviour fuel service = some (true, after)) :
    ∃ rest', Loop after (done ++ [service]) rest' ∧ after.next service = rest'.head? := by
  have hnodup := h.listed.nodup
  rw [h.m_services] at hnodup
  have hnew : service ∉ done := fun hmem =>
    (List.nodup_append.mp hnodup).2.2 service hmem service List.mem_cons_self rfl
  obtain ⟨hstatus, hcount⟩ := h.waiting service hnew
  have hafter := startService_turn (by rw [h.m_statusFlags]; simp) (by rw [hstatus]; simp)
    hrequirements hstart
  have hsorted := h.listed.sorted
  rw [h.m_services] at hsorted
  have hcalling : Listed (application.calling service) (done ++ [service]) :=
    ⟨h.listed.sorted, h.listed.nodup, ⟨rest, by
      rw [List.append_assoc]
      exact h.m_services.symm⟩⟩
  have hfront : ∀ other ∈ (behaviour.doInitialize (application.calling service) service).1,
      (application.calling service).defined other = false → ∀ first ∈ done ++ [service],
        ((application.calling service).feature first).value ≤
          ((application.calling service).feature other).value := by
    intro other hother hdefined first hfirst
    refine le_trans ?_ (hattaches other hother hdefined)
    rcases List.mem_append.mp hfirst with hfirst | hfirst
    · exact (List.pairwise_append.mp hsorted).2.2 first hfirst service List.mem_cons_self
    · exact List.mem_singleton.mp hfirst ▸ Nat.le_refl _
  obtain ⟨m_services, hfoldl, hlisted⟩ := hcalling.foldl_register _ hfront
  rw [hfoldl] at hafter
  subst hafter
  obtain ⟨rest', hrest'⟩ := hlisted.front_prefix
  have hevents (event : Event) : (application.events ++ [Event.doInitialize service]).count event =
      application.events.count event + if Event.doInitialize service = event then 1 else 0 := by
    simp only [List.count_append, List.count_singleton, beq_iff_eq]
  refine ⟨rest', ⟨hrest'.symm, ⟨hlisted.sorted, hlisted.nodup, hlisted.front_prefix⟩,
    h.m_statusFlags, fun other hother => ?_, fun other hother => ?_, fun other => ?_⟩, ?_⟩
  · simp only [Application.setStatus, Application.calling, Application.called, hevents]
    by_cases hsame : other = service
    · subst hsame
      exact ⟨Function.update_self _ _ _, by simp [hcount]⟩
    · have hmem : other ∈ done := by simpa [hsame] using hother
      obtain ⟨hrunning, hone⟩ := h.running other hmem
      rw [Function.update_of_ne hsame, Function.update_of_ne hsame]
      exact ⟨hrunning, by simp [hone, Ne.symm hsame]⟩
  · obtain ⟨hdone, hne⟩ : other ∉ done ∧ other ≠ service := by simpa using hother
    obtain ⟨hstopped, hzero⟩ := h.waiting other hdone
    simp only [Application.setStatus, Application.calling, Application.called, hevents]
    rw [Function.update_of_ne hne, Function.update_of_ne hne]
    exact ⟨hstopped, by simp [hzero, Ne.symm hne]⟩
  · have hzero := h.not_stopped other
    simp only [Application.setStatus, Application.calling, Application.called, hevents]
    simp [hzero]
  · have hsplit : m_services = done ++ service :: rest' := hrest'.symm.trans (by simp)
    exact next_eq hlisted.nodup hsplit

theorem Loop.ended {done rest : List Nat} (h : Loop application done rest)
    (hrequirements : EachTurn behaviour RequirementsRunning fuel application rest.head?)
    (hattaches : EachTurn behaviour (AttachesBehind behaviour) fuel application rest.head?)
    (hstart : application.startServices behaviour fuel rest.head? = some (true, after)) :
    ∃ all, Loop after all [] := by
  induction fuel generalizing application done rest with
  | zero =>
    cases rest with
    | nil =>
      obtain ⟨-, rfl⟩ := Prod.mk.inj (Option.some.inj hstart)
      exact ⟨done, h⟩
    | cons service rest => cases hstart
  | succ fuel ih =>
    cases rest with
    | nil =>
      obtain ⟨-, rfl⟩ := Prod.mk.inj (Option.some.inj hstart)
      exact ⟨done, h⟩
    | cons service rest =>
      rw [List.head?_cons] at hrequirements hattaches hstart
      obtain ⟨hrunning, hrequirements⟩ := hrequirements
      obtain ⟨hbehind, hattaches⟩ := hattaches
      obtain ⟨middle, hturn, hstart⟩ := Result.andThen_eq_some hstart
      rw [hturn] at hrequirements hattaches
      obtain ⟨rest', hloop, hnext⟩ := h.turn hrunning hbehind hturn
      have hlater := hrequirements middle rfl
      have hlater' := hattaches middle rfl
      rw [hnext] at hlater hlater' hstart
      exact ih hloop hlater hlater' hstart

theorem mem_of_select {feature : Feature} {implementation : Bytes} {selection : Nat}
    (h : application.select feature implementation = some selection) :
    selection ∈ application.m_services := by
  rw [Application.select] at h
  split at h
  · exact (List.mem_filter.mp (List.mem_of_find?_eq_some h)).1
  · exact (List.mem_filter.mp (List.mem_of_head? h)).1

/-- A requirement whose service does not run is called before the walk of the requirements ends. -/
theorem forEach_satisfy_called {requirements : List Requirement}
    (h : forEach (Application.satisfy (Application.startService behaviour fuel)) application
      requirements = some (true, after))
    {requirement : Requirement} (hmem : requirement ∈ requirements) {selection : Nat}
    (hselect : application.select requirement.m_feature requirement.m_implementation =
      some selection) (hstatus : application.status selection ≠ .Running) :
    ∃ other ∈ application.m_services, application.status other ≠ .Running ∧
      application.status other ≠ .Starting ∧
      application.events.count (.doInitialize other) + 1 ≤
        after.events.count (.doInitialize other) := by
  induction requirements with
  | nil => cases hmem
  | cons first requirements ih =>
    rw [forEach, Application.satisfy] at h
    cases hfirst : application.select first.m_feature first.m_implementation with
    | none =>
      simp only [hfirst] at h
      cases h
    | some chosen =>
      simp only [hfirst] at h
      have hcalls (hwaits : application.status chosen ≠ .Running ∧
            application.status chosen ≠ .Starting)
          (h : (application.startService behaviour fuel chosen).andThen
            (fun application => forEach (Application.satisfy
              (Application.startService behaviour fuel)) application requirements) =
                some (true, after)) :
          ∃ other ∈ application.m_services, application.status other ≠ .Running ∧
            application.status other ≠ .Starting ∧
            application.events.count (.doInitialize other) + 1 ≤
              after.events.count (.doInitialize other) := by
        obtain ⟨middle, hchosen, hrest⟩ := Result.andThen_eq_some h
        have hgrows := requirements_grows behaviour fuel middle requirements true after hrest
        exact ⟨chosen, mem_of_select hfirst, hwaits.1, hwaits.2,
          (startService_called hchosen).trans (hgrows.count_le _)⟩
      cases hchosen : application.status chosen with
      | Running =>
        simp only [hchosen] at h
        refine ih h ((List.mem_cons.mp hmem).resolve_left ?_)
        rintro rfl
        rw [hselect] at hfirst
        obtain rfl := Option.some.inj hfirst
        exact hstatus hchosen
      | Starting =>
        simp only [hchosen] at h
        cases h
      | Stopped =>
        simp only [hchosen] at h
        exact hcalls (by simp [hchosen]) h
      | StoppedWithError =>
        simp only [hchosen] at h
        exact hcalls (by simp [hchosen]) h

theorem startService_other
    (h : application.startService behaviour fuel service = some (true, after))
    (hrequirements : ¬ RequirementsRunning application service) :
    ∃ other ∈ application.m_services, other ≠ service ∧ application.status other ≠ .Running ∧
      application.events.count (.doInitialize other) + 1 ≤
        after.events.count (.doInitialize other) := by
  cases fuel with
  | zero => cases h
  | succ fuel =>
    obtain ⟨middle, hmiddle, rfl⟩ := startService_cases h
    rw [RequirementsRunning] at hrequirements
    push Not at hrequirements
    obtain ⟨requirement, hmem, selection, hselect, hstatus⟩ := hrequirements
    obtain ⟨ready, hrequired, hmiddle⟩ := Result.andThen_eq_some hmiddle
    have hwaits : (application.setStatus service .Starting).status selection ≠ .Running := by
      by_cases hsame : selection = service
      · simp [Application.setStatus, hsame]
      · simpa [Application.setStatus, Function.update_of_ne hsame] using hstatus
    obtain ⟨other, hother, hrunning, hstarting, hcount⟩ :=
      forEach_satisfy_called hrequired hmem hselect hwaits
    have hne : other ≠ service := by
      rintro rfl
      exact hstarting (Function.update_self _ _ _)
    have hgrows := doInitialize_grows behaviour fuel service ready true middle hmiddle
    refine ⟨other, hother, hne, ?_, hcount.trans ?_⟩
    · simpa [Application.setStatus, Function.update_of_ne hne] using hrunning
    · exact ((Grows.called ready _).trans hgrows).count_le _

/-- A loop in which a service starts another one comes to that one again. -/
theorem Loop.twice {done rest : List Nat} (h : Loop application done rest)
    (hattaches : EachTurn behaviour (AttachesBehind behaviour) fuel application rest.head?)
    (hrequirements : ¬ EachTurn behaviour RequirementsRunning fuel application rest.head?)
    (hstart : application.startServices behaviour fuel rest.head? = some (true, after)) :
    ∃ service ∈ after.m_services, 2 ≤ after.events.count (.doInitialize service) := by
  induction fuel generalizing application done rest with
  | zero => exact absurd trivial hrequirements
  | succ fuel ih =>
    cases rest with
    | nil => exact absurd trivial hrequirements
    | cons service rest =>
      rw [List.head?_cons] at hrequirements hattaches hstart
      obtain ⟨hbehind, hattaches⟩ := hattaches
      obtain ⟨middle, hturn, hstart⟩ := Result.andThen_eq_some hstart
      rw [hturn] at hattaches
      by_cases hrunning : RequirementsRunning application service
      · obtain ⟨rest', hloop, hnext⟩ := h.turn hrunning hbehind hturn
        have hlater : ¬ EachTurn behaviour RequirementsRunning fuel middle rest'.head? := by
          intro hlater
          refine hrequirements ⟨hrunning, ?_⟩
          rintro continued hcontinued
          rw [hturn] at hcontinued
          obtain rfl := Option.some.inj hcontinued
          exact hnext ▸ hlater
        have hlater' := hattaches middle rfl
        rw [hnext] at hlater' hstart
        exact ih hloop hlater' hlater hstart
      · obtain ⟨other, hother, hne, hwaits, hcount⟩ := startService_other hturn hrunning
        rw [h.m_services] at hother
        have hbehind : other ∈ rest := by
          rcases List.mem_append.mp hother with hdone | hother
          · exact absurd (h.running other hdone).1 hwaits
          · exact (List.mem_cons.mp hother).resolve_left hne
        have hgrows := startService_grows behaviour fuel application service true middle hturn
        obtain ⟨before', behind', hservices, hsubset⟩ := hgrows.behind h.m_services
        have hmem := hsubset hbehind
        have hnodup := hgrows.nodup h.listed.nodup
        rw [next_eq hnodup hservices] at hstart
        have hafter := startServices_grows behaviour fuel middle _ true after hstart
        cases behind' with
        | nil => cases hmem
        | cons first behind' =>
          have hsplit : middle.m_services = (before' ++ [service]) ++ first :: behind' := by
            simp [hservices]
          have hagain := startServices_called hnodup hsplit hstart other hmem
          refine ⟨other, hafter.m_services.subset (by rw [hservices]; simp [hmem]), ?_⟩
          omega

end Turn

section Stop

variable {behaviour : Behaviour} {application : Application}

theorem stopServices_count (services : List Nat) (hnodup : services.Nodup)
    (hrunning : ∀ service ∈ services, application.status service = .Running) (event : Event) :
    (application.stopServices behaviour services).2.events.count event =
      application.events.count event + (services.map Event.doStop).count event := by
  induction services generalizing application with
  | nil => rfl
  | cons service services ih =>
    obtain ⟨hnew, hnodup⟩ := List.nodup_cons.mp hnodup
    have hservice := hrunning service List.mem_cons_self
    have hstop : (application.stopService behaviour service).2.events =
        application.events ++ [.doStop service] := by
      simp [Application.stopService, hservice, Status.isStopped, Application.called,
        Application.setStatus]
    have hrest : ∀ other ∈ services,
        (application.stopService behaviour service).2.status other = .Running := by
      intro other hother
      have hne : other ≠ service := fun heq => hnew (heq ▸ hother)
      simp [Application.stopService, hservice, Status.isStopped, Application.called,
        Application.setStatus, Function.update_of_ne hne,
        hrunning other (List.mem_cons_of_mem _ hother)]
    rw [Application.stopServices]
    simp only
    rw [ih hnodup hrest, hstop, List.map_cons]
    simp only [List.count_append, List.count_cons, List.count_nil]
    omega

end Stop

theorem Loop.startsOnce {behaviour : Behaviour} {application : Application} {all : List Nat}
    (h : Loop application all []) :
    StartsOnce behaviour { application with m_statusFlags := .Running } := by
  have hall : application.m_services = all := h.m_services.trans (List.append_nil all)
  refine ⟨fun service hservice => (h.running service (hall ▸ hservice)).2, fun service => ?_⟩
  have hstop : ((({ application with m_statusFlags := .Running } : Application).stop
      behaviour).2).events = (Application.stopServices behaviour
        { application with m_statusFlags := .Running } application.m_services).2.events := rfl
  have hinjective : Function.Injective Event.doStop := fun a b heq => Event.doStop.inj heq
  have hrunning : ∀ other ∈ application.m_services, application.status other = .Running :=
    fun other hother => (h.running other (hall ▸ hother)).1
  have hcount := @stopServices_count behaviour { application with m_statusFlags := .Running }
    application.m_services h.listed.nodup hrunning (.doStop service)
  rw [hstop, hcount, List.count_map_of_injective _ _ hinjective, h.not_stopped service,
    Nat.zero_add]
  by_cases hmem : service ∈ all
  · rw [(h.running service hmem).2]
    exact List.count_eq_one_of_mem h.listed.nodup (hall ▸ hmem)
  · rw [(h.waiting service hmem).2]
    exact List.count_eq_zero_of_not_mem (hall ▸ hmem)

def starting (services : Nat → Service) (attached : List Nat) : Application :=
  { attached.foldl Application.register (.instantiate services) with m_statusFlags := .Starting }

theorem loop_starting (services : Nat → Service) (attached : List Nat) :
    Loop (starting services attached) [] (starting services attached).m_services := by
  have hempty : Listed (.instantiate services) [] :=
    ⟨List.Pairwise.nil, List.nodup_nil, List.prefix_refl _⟩
  obtain ⟨m_services, hfoldl, hlisted⟩ := hempty.foldl_register attached
    fun _ _ _ _ h => absurd h List.not_mem_nil
  rw [starting, hfoldl]
  exact ⟨rfl, ⟨hlisted.sorted, hlisted.nodup, List.nil_prefix⟩, rfl, fun _ h => absurd h List.not_mem_nil,
    fun _ _ => ⟨rfl, rfl⟩, fun _ => rfl⟩

/-- A start that gets all services running has started and will stop each of them once just when each
turn of its loop found the requirements of the service running, provided that no service attached
meanwhile comes before the one that attached it. -/
theorem startsOnce_iff_requirementsRunning (behaviour : Behaviour) (services : Nat → Service)
    (attached : List Nat) (fuel : Nat) {after : Application}
    (hstart : (attached.foldl Application.register (.instantiate services)).started behaviour fuel =
      some (true, after))
    (hattaches : EachTurn behaviour (AttachesBehind behaviour) fuel (starting services attached)
      (starting services attached).m_services.head?) :
    StartsOnce behaviour after ↔ EachTurn behaviour RequirementsRunning fuel
      (starting services attached) (starting services attached).m_services.head? := by
  have hloop := loop_starting services attached
  have hservices : ((starting services attached).startServices behaviour fuel
      (starting services attached).m_services.head?).andThen
        (fun application => some (true, { application with m_statusFlags := .Running })) =
          some (true, after) := hstart
  obtain ⟨ended, hended, hservices⟩ := Result.andThen_eq_some hservices
  obtain ⟨-, rfl⟩ := Prod.mk.inj (Option.some.inj hservices)
  constructor
  · intro honce
    by_contra hrequirements
    obtain ⟨service, hmem, htwice⟩ := hloop.twice hattaches hrequirements hended
    have hone := honce.initialized service hmem
    exact absurd (hone ▸ htwice) (by decide)
  · intro hrequirements
    obtain ⟨all, hall⟩ := hloop.ended hrequirements hattaches hended
    exact hall.startsOnce

section Examples

def threeServices : Nat → Service
  | 0 => ⟨.Database, text "sqlite", []⟩
  | 1 => ⟨.Timing, text "native", [⟨.Database, WhateverImplementation⟩]⟩
  | _ => ⟨.Networking, text "zmq", [⟨.Database, text "sqlite"⟩, ⟨.Timing, WhateverImplementation⟩]⟩

def attachesSocket : Behaviour where
  doInitialize _ service := (if service = 0 then [2] else [], true)
  doStop _ service := service ≠ 1
  run _ := true

theorem startsOnce_threeServices :
    ∃ after, ([1, 0].foldl Application.register (.instantiate threeServices)).started
        attachesSocket 4 = some (true, after) ∧
      (StartsOnce attachesSocket after ↔ EachTurn attachesSocket RequirementsRunning 4
        (starting threeServices [1, 0]) (starting threeServices [1, 0]).m_services.head?) := by
  have hstarts : (([1, 0].foldl Application.register (.instantiate threeServices)).started
      attachesSocket 4).map (·.1) = some true := by decide +kernel
  obtain ⟨⟨returns, after⟩, hstart, rfl⟩ := Option.map_eq_some_iff.mp hstarts
  refine ⟨after, hstart, startsOnce_iff_requirementsRunning attachesSocket threeServices [1, 0] 4
    hstart (by decide +kernel)⟩

def logBehind : Nat → Service
  | 0 => ⟨.Database, text "sqlite", [⟨.UserDefined, WhateverImplementation⟩]⟩
  | _ => ⟨.UserDefined, text "log", []⟩

def attaches (attached : Nat → List Nat) : Behaviour where
  doInitialize _ service := (attached service, true)
  doStop _ _ := true
  run _ := true

/-- A service that was started as a requirement is started again when the loop comes to it, and one
that is attached before the service that attaches it is never started. -/
theorem not_startsOnce_behind :
    (∃ after, ([0, 1].foldl Application.register (.instantiate logBehind)).started
        (attaches fun _ => []) 4 = some (true, after) ∧
      ¬ StartsOnce (attaches fun _ => []) after) ∧
    ∃ after, ([1].foldl Application.register (.instantiate logBehind)).started
        (attaches fun service => if service = 1 then [0] else []) 4 = some (true, after) ∧
      ¬ StartsOnce (attaches fun service => if service = 1 then [0] else []) after := by
  constructor
  · have hevents : (([0, 1].foldl Application.register (.instantiate logBehind)).started
        (attaches fun _ => []) 4).map (fun ended => (ended.1, ended.2.m_services, ended.2.events)) =
        some (true, [0, 1], [.doInitialize 1, .doInitialize 0, .doInitialize 1]) := by
      decide +kernel
    obtain ⟨⟨returns, after⟩, hstart, hended⟩ := Option.map_eq_some_iff.mp hevents
    obtain ⟨rfl, hrest⟩ := Prod.mk.inj hended
    obtain ⟨hservices, hevents⟩ := Prod.mk.inj hrest
    refine ⟨after, hstart, fun honce => ?_⟩
    have hone := honce.initialized 1 (by rw [hservices]; decide)
    rw [hevents] at hone
    exact absurd hone (by decide)
  · have hevents : (([1].foldl Application.register (.instantiate logBehind)).started
        (attaches fun service => if service = 1 then [0] else []) 4).map
          (fun ended => (ended.1, ended.2.m_services, ended.2.events)) =
        some (true, [0, 1], [.doInitialize 1]) := by
      decide +kernel
    obtain ⟨⟨returns, after⟩, hstart, hended⟩ := Option.map_eq_some_iff.mp hevents
    obtain ⟨rfl, hrest⟩ := Prod.mk.inj hended
    obtain ⟨hservices, hevents⟩ := Prod.mk.inj hrest
    refine ⟨after, hstart, fun honce => ?_⟩
    have hone := honce.initialized 0 (by rw [hservices]; decide)
    rw [hevents] at hone
    exact absurd hone (by decide)

end Examples

end Coffee.App
