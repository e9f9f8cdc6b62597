import Coffee.Library.Runs
import Coffee.Time.Wheel
import Mathlib.Data.List.Induction

/-! # Countdowns of events

What a timing wheel is for: every active event counts the ticks down. An event whose timeout is `k`
quanta is notified in the tick that finds its countdown at 0, which is the tick `k + 1` after its
activation, and a periodical event in every tick `k` later. A service that is stopped accepts no event
and counts no ticks.
-/

namespace Coffee.Time

open Coffee.Library

/-- The active events and the ticks that each has still to wait. -/
abbrev Countdown := Int → Option (TimeEvent × Nat)

namespace Countdown

def accepts (settings : Settings) (countdown : Countdown) : Option TimeEvent → Bool
  | none => false
  | some timeEvent =>
    decide (settings.resolution ≤ timeEvent.timeout ∧ timeEvent.timeout ≤ settings.maxTime) &&
      (countdown timeEvent.id).isNone

def cancels (countdown : Countdown) : Option TimeEvent → Bool
  | none => false
  | some timeEvent => (countdown timeEvent.id).isSome

/-- A tick brings every event one nearer, after those at 0 have been notified. -/
def tick (settings : Settings) (countdown : Countdown) : Countdown := fun id =>
  match countdown id with
  | none => none
  | some (timeEvent, 0) =>
    (restart settings timeEvent).map fun counted => (counted.1, counted.2 - 1)
  | some (timeEvent, ticks + 1) => some (timeEvent, ticks)

def step (settings : Settings) (countdown : Countdown) : Operation → Countdown
  | .activate none => countdown
  | .activate (some timeEvent) =>
    if accepts settings countdown (some timeEvent) then
      Function.update countdown timeEvent.id (some (timeEvent, settings.quanta timeEvent))
    else countdown
  | .cancel none => countdown
  | .cancel (some timeEvent) => Function.update countdown timeEvent.id none
  | .consume => tick settings countdown

end Countdown

/-- The countdowns of a service, which may be stopped. -/
structure Clock where
  stopped : Bool
  countdown : Countdown

namespace Clock

def accepts (settings : Settings) (clock : Clock) (timeEvent : Option TimeEvent) : Bool :=
  !clock.stopped && clock.countdown.accepts settings timeEvent

def call (settings : Settings) (clock : Clock) : Call → Clock
  | .operation (.activate timeEvent) =>
    if clock.stopped then clock
    else { clock with countdown := clock.countdown.step settings (.activate timeEvent) }
  | .operation operation => { clock with countdown := clock.countdown.step settings operation }
  | .stop => { clock with stopped := true }
  | .doInitialize => { clock with stopped := false }

def after (settings : Settings) (calls : List Call) : Clock :=
  Runs.run (call settings) ⟨true, fun _ => none⟩ calls

def Keeps (id : Int) (clock : Clock) (call : Call) : Prop :=
  ∀ timeEvent, call = .operation (.cancel (some timeEvent)) → timeEvent.id = id →
    clock.countdown.cancels (some timeEvent) = false

end Clock

def ticks (calls : List Call) : Nat := calls.count (.operation .consume)

/-- Where the countdown of an event can stand `elapsed` ticks after its activation. -/
def Phase (settings : Settings) (timeEvent : TimeEvent) (elapsed left : Nat) : Prop :=
  if timeEvent.isPeriodical then
    ∃ m, elapsed + left = settings.quanta timeEvent + m * settings.quanta timeEvent ∧
      (m = 0 ∨ left < settings.quanta timeEvent)
  else elapsed + left = settings.quanta timeEvent

/-- The ticks after its activation in which an event is notified. -/
def DueAt (settings : Settings) (timeEvent : TimeEvent) (tick : Nat) : Prop :=
  if timeEvent.isPeriodical then
    ∃ m, tick = settings.quanta timeEvent + 1 + m * settings.quanta timeEvent
  else tick = settings.quanta timeEvent + 1

section Phase

variable {settings : Settings} {timeEvent : TimeEvent} {elapsed left left' : Nat}

theorem phase_zero_iff (hquanta : 1 ≤ settings.quanta timeEvent) :
    Phase settings timeEvent elapsed 0 ↔ DueAt settings timeEvent (elapsed + 1) := by
  rw [Phase, DueAt]
  split
  · constructor
    · rintro ⟨m, hm, -⟩
      exact ⟨m, by omega⟩
    · rintro ⟨m, hm⟩
      exact ⟨m, by omega, .inr hquanta⟩
  · omega

/-- An event cannot be a whole turn of its countdown ahead of itself. -/
theorem phase_le {m m' : Nat} {k : Nat} (h : elapsed + left = k + m * k)
    (h' : elapsed + left' = k + m' * k) (hleft' : m' = 0 ∨ left' < k) : m' ≤ m := by
  by_contra hlt
  obtain ⟨d, rfl⟩ : ∃ d, m' = m + d + 1 := ⟨m' - m - 1, by omega⟩
  have hturn : (m + d + 1) * k = m * k + d * k + k := by
    rw [Nat.succ_mul, Nat.add_mul]
  omega

theorem Phase.unique (h : Phase settings timeEvent elapsed left)
    (h' : Phase settings timeEvent elapsed left') : left = left' := by
  rw [Phase] at h h'
  split at h
  · next hperiodical =>
    rw [if_pos hperiodical] at h'
    obtain ⟨m, hm, hleft⟩ := h
    obtain ⟨m', hm', hleft'⟩ := h'
    obtain rfl : m = m' := Nat.le_antisymm (phase_le hm' hm hleft) (phase_le hm hm' hleft')
    omega
  · next hperiodical =>
    rw [if_neg hperiodical] at h'
    omega

theorem phase_start : Phase settings timeEvent 0 (settings.quanta timeEvent) := by
  rw [Phase]
  split
  · exact ⟨0, by omega, .inl rfl⟩
  · omega

theorem Phase.tick (h : Phase settings timeEvent elapsed (left + 1)) :
    Phase settings timeEvent (elapsed + 1) left := by
  rw [Phase] at h ⊢
  split at h
  · next hperiodical =>
    obtain ⟨m, hm, hleft⟩ := h
    rw [if_pos hperiodical]
    exact ⟨m, by omega, by omega⟩
  · next hperiodical =>
    rw [if_neg hperiodical]
    omega

theorem Phase.turn (h : Phase settings timeEvent elapsed 0) (hquanta : 1 ≤ settings.quanta timeEvent)
    (hperiodical : timeEvent.isPeriodical = true) :
    Phase settings timeEvent (elapsed + 1) (settings.quanta timeEvent - 1) := by
  rw [Phase, if_pos hperiodical] at h ⊢
  obtain ⟨m, hm, -⟩ := h
  have hturn : (m + 1) * settings.quanta timeEvent =
    m * settings.quanta timeEvent + settings.quanta timeEvent := Nat.succ_mul _ _
  exact ⟨m + 1, by omega, by omega⟩

end Phase

namespace Countdown

variable {settings : Settings} {timeEvent : TimeEvent} {id : Int} {left : Nat} {countdown : Countdown}

theorem accepts_iff : accepts settings countdown (some timeEvent) = true ↔
    (settings.resolution ≤ timeEvent.timeout ∧ timeEvent.timeout ≤ settings.maxTime) ∧
      countdown timeEvent.id = none := by
  simp [accepts, Option.isNone_iff_eq_none]

/-- Between two ticks an event keeps its countdown, unless it is cancelled. -/
theorem step_of_ne {operation : Operation} (h : countdown id = some (timeEvent, left))
    (hne : ∀ cancelled, operation = .cancel (some cancelled) → cancelled.id ≠ id)
    (hop : operation ≠ .consume) : step settings countdown operation id = some (timeEvent, left) := by
  cases operation with
  | activate activated => cases activated with
    | none => exact h
    | some activated =>
      rw [step]
      split
      · next haccepts =>
        obtain ⟨-, hnone⟩ := accepts_iff.mp haccepts
        rw [Function.update_of_ne, h]
        rintro rfl
        rw [h] at hnone
        cases hnone
      · exact h
  | cancel cancelled => cases cancelled with
    | none => exact h
    | some cancelled =>
      rw [step, Function.update_of_ne (hne cancelled rfl).symm, h]
  | consume => exact absurd rfl hop

/-- Between two ticks a countdown stands from before, or begins. -/
theorem step_eq_some {operation : Operation} (hop : operation ≠ .consume)
    (h : step settings countdown operation id = some (timeEvent, left)) :
    (countdown id = some (timeEvent, left) ∧
        ∀ cancelled, operation = .cancel (some cancelled) → cancelled.id ≠ id) ∨
      operation = .activate (some timeEvent) ∧ timeEvent.id = id ∧
        accepts settings countdown (some timeEvent) = true ∧ left = settings.quanta timeEvent := by
  cases operation with
  | activate activated => cases activated with
    | none => exact .inl ⟨h, nofun⟩
    | some activated =>
      rw [step] at h
      split at h
      · next haccepts =>
        by_cases hid : id = activated.id
        · rw [hid, Function.update_self] at h
          obtain ⟨rfl, rfl⟩ := Prod.mk.inj (Option.some.inj h)
          exact .inr ⟨rfl, hid.symm, haccepts, rfl⟩
        · rw [Function.update_of_ne hid] at h
          exact .inl ⟨h, nofun⟩
      · exact .inl ⟨h, nofun⟩
  | cancel cancelled => cases cancelled with
    | none => exact .inl ⟨h, nofun⟩
    | some cancelled =>
      rw [step] at h
      by_cases hid : id = cancelled.id
      · rw [hid, Function.update_self] at h
        cases h
      · rw [Function.update_of_ne hid] at h
        refine .inl ⟨h, fun other hother heq => hid ?_⟩
        obtain rfl := Option.some.inj (Operation.cancel.inj hother)
        exact heq.symm
  | consume => exact absurd rfl hop

end Countdown

namespace Clock

variable {settings : Settings} {timeEvent : TimeEvent} {calls since : List Call} {id : Int}
  {left : Nat} {clock : Clock}

/-- The event was activated in `calls`, was not cancelled since, and has `left` ticks to wait. -/
def Active (settings : Settings) (calls : List Call) (timeEvent : TimeEvent) (left : Nat) : Prop :=
  ∃ before since, calls = before ++ .operation (.activate (some timeEvent)) :: since ∧
    (after settings before).accepts settings (some timeEvent) = true ∧
    Runs.Meets (call settings) (Keeps timeEvent.id)
      (after settings (before ++ [.operation (.activate (some timeEvent))])) since ∧
    Phase settings timeEvent (ticks since) left

theorem after_concat (settings : Settings) (calls : List Call) (call : Call) :
    after settings (calls ++ [call]) = (after settings calls).call settings call :=
  Runs.run_concat _ _

theorem ticks_concat (calls : List Call) (call : Call) :
    ticks (calls ++ [call]) = ticks calls + if call = .operation .consume then 1 else 0 := by
  rw [ticks, ticks, List.count_append]
  by_cases hcall : call = .operation .consume
  · rw [hcall]
    rfl
  · rw [if_neg hcall, List.count_singleton]
    simp [hcall]

theorem accepts_iff : clock.accepts settings (some timeEvent) = true ↔ clock.stopped = false ∧
    (settings.resolution ≤ timeEvent.timeout ∧ timeEvent.timeout ≤ settings.maxTime) ∧
      clock.countdown timeEvent.id = none := by
  simp [accepts, Countdown.accepts_iff]

theorem call_activate_none : clock.call settings (.operation (.activate none)) = clock := by
  rw [Clock.call]
  split <;> rfl

theorem call_activate_some : clock.call settings (.operation (.activate (some timeEvent))) =
    if clock.accepts settings (some timeEvent) then
      { clock with
        countdown := Function.update clock.countdown timeEvent.id
          (some (timeEvent, settings.quanta timeEvent)) }
    else clock := by
  obtain ⟨stopped, countdown⟩ := clock
  cases stopped with
  | true => simp [Clock.call, accepts]
  | false =>
    simp only [Clock.call, accepts, Countdown.step, Bool.false_eq_true, if_false, Bool.not_false,
      Bool.true_and]
    split <;> rfl

theorem call_cancel_some : clock.call settings (.operation (.cancel (some timeEvent))) =
    { clock with countdown := Function.update clock.countdown timeEvent.id none } := rfl

theorem call_consume : clock.call settings (.operation .consume) =
    { clock with countdown := clock.countdown.tick settings } := rfl

theorem Active.concat (h : Active settings calls timeEvent left) {left' : Nat} {call : Call}
    (hkeeps : Keeps timeEvent.id (after settings calls) call)
    (hphase : ∀ elapsed, Phase settings timeEvent elapsed left →
      Phase settings timeEvent (elapsed + if call = .operation .consume then 1 else 0) left') :
    Active settings (calls ++ [call]) timeEvent left' := by
  obtain ⟨before, since, rfl, haccepts, hmeets, hleft⟩ := h
  refine ⟨before, since ++ [call], by simp, haccepts, ?_, ?_⟩
  · refine Runs.meets_append.mpr ⟨hmeets, ?_, trivial⟩
    rw [after, ← Runs.run_append]
    simpa [after] using hkeeps
  · rw [ticks_concat]
    exact hphase _ hleft

theorem keeps_consume : Keeps id clock (.operation .consume) := fun _ hcall => by cases hcall

theorem one_le_quanta (haccepts : clock.accepts settings (some timeEvent) = true) :
    1 ≤ settings.quanta timeEvent := by
  obtain ⟨-, ⟨hge, hle⟩, -⟩ := accepts_iff.mp haccepts
  exact (settings.quanta_mem hle hge).1

theorem call_of_keeps {call : Call} (h : clock.countdown id = some (timeEvent, left))
    (hkeeps : Keeps id clock call) (hcall : call ≠ .operation .consume) :
    (clock.call settings call).countdown id = some (timeEvent, left) := by
  cases call with
  | stop => exact h
  | doInitialize => exact h
  | operation operation =>
    have hop : operation ≠ .consume := fun hop => hcall (congrArg Call.operation hop)
    have hne : ∀ cancelled, operation = .cancel (some cancelled) → cancelled.id ≠ id := by
      rintro cancelled rfl rfl
      have hfails := hkeeps cancelled rfl rfl
      rw [Countdown.cancels, h] at hfails
      cases hfails
    cases operation with
    | consume => exact absurd rfl hop
    | cancel cancelled => exact Countdown.step_of_ne h hne hop
    | activate activated =>
      rw [Clock.call]
      split
      · exact h
      · exact Countdown.step_of_ne h hne hop

theorem call_eq_some {call : Call} (hcall : call ≠ .operation .consume)
    (h : (clock.call settings call).countdown id = some (timeEvent, left)) :
    (clock.countdown id = some (timeEvent, left) ∧
        ∀ cancelled, call = .operation (.cancel (some cancelled)) → cancelled.id ≠ id) ∨
      call = .operation (.activate (some timeEvent)) ∧ timeEvent.id = id ∧
        clock.accepts settings (some timeEvent) = true ∧ left = settings.quanta timeEvent := by
  cases call with
  | stop => exact .inl ⟨h, nofun⟩
  | doInitialize => exact .inl ⟨h, nofun⟩
  | operation operation => cases operation with
    | consume => exact absurd rfl hcall
    | cancel cancelled =>
      obtain ⟨hbefore, hne⟩ | ⟨hop, -⟩ := Countdown.step_eq_some (by nofun) h
      · refine .inl ⟨hbefore, fun other hother => hne other ?_⟩
        cases hother
        rfl
      · cases hop
    | activate activated =>
      rw [Clock.call] at h
      split at h
      · exact .inl ⟨h, nofun⟩
      · next hrunning =>
        obtain ⟨hbefore, -⟩ | ⟨hop, hid, haccepts, hleft⟩ := Countdown.step_eq_some (by nofun) h
        · exact .inl ⟨hbefore, nofun⟩
        · refine .inr ⟨congrArg Call.operation hop, hid, ?_, hleft⟩
          simp [Clock.accepts, hrunning, haccepts]

/-- Every countdown belongs to an activation that was not cancelled since. -/
theorem active_of_after (calls : List Call) {id : Int} {timeEvent : TimeEvent} {left : Nat}
    (h : (after settings calls).countdown id = some (timeEvent, left)) :
    timeEvent.id = id ∧ 1 ≤ settings.quanta timeEvent ∧ Active settings calls timeEvent left := by
  induction calls using List.reverseRecOn generalizing id timeEvent left with
  | nil => cases h
  | append_singleton calls call ih =>
    rw [after_concat] at h
    by_cases hcall : call = .operation .consume
    · subst hcall
      simp only [Clock.call, Countdown.step, Countdown.tick] at h
      split at h
      · cases h
      · next fired hfired =>
        obtain ⟨hid, hquanta, hactive⟩ := ih hfired
        rw [restart] at h
        split at h
        · next hperiodical =>
          obtain ⟨rfl, rfl⟩ := Prod.mk.inj (Option.some.inj h)
          refine ⟨hid, hquanta, hactive.concat keeps_consume fun _ hphase => ?_⟩
          exact hphase.turn hquanta hperiodical
        · cases h
      · next counted rest hcounted =>
        obtain ⟨rfl, rfl⟩ := Prod.mk.inj (Option.some.inj h)
        obtain ⟨hid, hquanta, hactive⟩ := ih hcounted
        exact ⟨hid, hquanta, hactive.concat keeps_consume fun _ hphase => hphase.tick⟩
    · obtain ⟨hbefore, hcancelled⟩ | ⟨rfl, hid, haccepts, rfl⟩ := call_eq_some hcall h
      · obtain ⟨hid, hquanta, hactive⟩ := ih hbefore
        refine ⟨hid, hquanta, hactive.concat (fun cancelled heq hsame => ?_) fun _ hphase => ?_⟩
        · exact absurd (hsame.trans hid) (hcancelled cancelled heq)
        · rwa [if_neg hcall]
      · exact ⟨hid, one_le_quanta haccepts, calls, [], rfl, haccepts, trivial, phase_start⟩

/-- An activation that was not cancelled since counts down until it is notified, and a periodical one
without end. -/
theorem after_of_meets {before : List Call}
    (haccepts : (after settings before).accepts settings (some timeEvent) = true)
    (since : List Call)
    (hmeets : Runs.Meets (call settings) (Keeps timeEvent.id)
      (after settings (before ++ [.operation (.activate (some timeEvent))])) since) :
    (∃ left, (after settings (before ++ .operation (.activate (some timeEvent)) :: since)).countdown
        timeEvent.id = some (timeEvent, left) ∧ Phase settings timeEvent (ticks since) left) ∨
      timeEvent.isPeriodical = false ∧ settings.quanta timeEvent < ticks since := by
  have hquanta := one_le_quanta haccepts
  induction since using List.reverseRecOn with
  | nil =>
    refine .inl ⟨settings.quanta timeEvent, ?_, phase_start⟩
    rw [Clock.accepts, Bool.and_eq_true, Bool.not_eq_true'] at haccepts
    rw [after_concat, Clock.call, haccepts.1]
    simp [Countdown.step, haccepts.2]
  | append_singleton since call ih =>
    obtain ⟨hsince, hkeeps, -⟩ := Runs.meets_append.mp hmeets
    have hkept : Keeps timeEvent.id
        (after settings (before ++ .operation (.activate (some timeEvent)) :: since)) call := by
      rw [after, ← Runs.run_append, List.append_assoc] at hkeeps
      exact hkeeps
    have hafter : after settings
          (before ++ .operation (.activate (some timeEvent)) :: (since ++ [call])) =
        (after settings (before ++ .operation (.activate (some timeEvent)) :: since)).call settings
          call := by
      rw [← after_concat]
      simp
    rw [hafter, ticks_concat]
    rcases ih hsince with ⟨left, hleft, hphase⟩ | ⟨honce, hlt⟩
    · by_cases hcall : call = .operation .consume
      · subst hcall
        rw [if_pos rfl]
        cases left with
        | succ left =>
          exact .inl ⟨left, by simp [Clock.call, Countdown.step, Countdown.tick, hleft], hphase.tick⟩
        | zero =>
          by_cases hperiodical : timeEvent.isPeriodical = true
          · refine .inl ⟨settings.quanta timeEvent - 1, ?_, hphase.turn hquanta hperiodical⟩
            simp [Clock.call, Countdown.step, Countdown.tick, hleft, restart, hperiodical]
          · refine .inr ⟨Bool.not_eq_true _ ▸ hperiodical, ?_⟩
            rw [Phase, if_neg hperiodical] at hphase
            omega
      · rw [if_neg hcall, Nat.add_zero]
        exact .inl ⟨left, call_of_keeps hleft hkept hcall, hphase⟩
    · exact .inr ⟨honce, by omega⟩

theorem after_eq_some_iff (calls : List Call) :
    (after settings calls).countdown timeEvent.id = some (timeEvent, left) ↔
      Active settings calls timeEvent left := by
  constructor
  · intro h
    exact (active_of_after calls h).2.2
  · rintro ⟨before, since, rfl, haccepts, hmeets, hphase⟩
    rcases after_of_meets haccepts since hmeets with ⟨left', hleft', hphase'⟩ | ⟨honce, hlt⟩
    · rw [hleft', hphase.unique hphase']
    · rw [Phase, if_neg (by simp [honce])] at hphase
      omega

end Clock

end Coffee.Time
