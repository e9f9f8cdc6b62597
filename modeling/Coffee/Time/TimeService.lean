import Mathlib.Algebra.Order.Group.Int
import Mathlib.Logic.Function.Basic

/-! # The timing wheel

`time::TimeService` keeps the active events in the slots of a wheel. Times are counts of
milliseconds. A list node is a number, which is what an iterator leads to.
-/

namespace Coffee.Time

structure TimeEvent where
  id : Int
  timeout : Int
  isPeriodical : Bool
deriving DecidableEq, Repr

/-- The loop of `calculeMaxQuantum`. It stops before the fuel does when it is at least the number of
milliseconds. -/
def roundUp (maxTime resolution : Int) : Nat → Int → Int
  | 0, result => result
  | fuel + 1, result =>
    if result * resolution < maxTime then roundUp maxTime resolution fuel (result + 1) else result

def calculeMaxQuantum (maxTime resolution : Int) : Int :=
  roundUp maxTime resolution maxTime.toNat (maxTime / resolution)

/-- What the constructor divides by, and what `doInitialize` checks. -/
structure Settings where
  maxTime : Int
  resolution : Int
  resolution_pos : 0 < resolution
  resolution_lt : resolution < maxTime

def Settings.maxQuantum (settings : Settings) : Nat :=
  (calculeMaxQuantum settings.maxTime settings.resolution).toNat

def Settings.quanta (settings : Settings) (timeEvent : TimeEvent) : Nat :=
  (timeEvent.timeout / settings.resolution).toNat

structure Node where
  id : Nat
  timeEvent : TimeEvent
deriving DecidableEq, Repr

inductive Quantum where
  | timeTable (indexQuantum : Nat)
  | temporaryQuantum
deriving DecidableEq, Repr

structure Location where
  target : Quantum
  node : Nat
deriving DecidableEq, Repr

structure TimeService where
  stopped : Bool
  currentQuantum : Nat
  quantum : Quantum → List Node
  events : Int → Option Location
  nextNode : Nat

inductive TimeException where
  | stopped | noEvent | noDuration | outOfRange | alreadyActivated
deriving DecidableEq, Repr

namespace TimeService

def instantiate : TimeService := ⟨true, 0, fun _ => [], fun _ => none, 0⟩

def target (settings : Settings) (timeService : TimeService) (timeEvent : TimeEvent) : Quantum :=
  let indexQuantum :=
    (timeService.currentQuantum + settings.quanta timeEvent) % settings.maxQuantum
  if indexQuantum = timeService.currentQuantum then .temporaryQuantum else .timeTable indexQuantum

def store (settings : Settings) (timeService : TimeService) (timeEvent : TimeEvent) :
    TimeService :=
  let target := timeService.target settings timeEvent
  { timeService with
    quantum := Function.update timeService.quantum target
      (⟨timeService.nextNode, timeEvent⟩ :: timeService.quantum target)
    events := Function.update timeService.events timeEvent.id
      (some ⟨target, timeService.nextNode⟩)
    nextNode := timeService.nextNode + 1 }

def activate (settings : Settings) (timeService : TimeService) (timeEvent : Option TimeEvent) :
    Except TimeException TimeService :=
  if timeService.stopped then .error .stopped
  else match timeEvent with
  | none => .error .noEvent
  | some timeEvent =>
    if timeEvent.timeout = 0 then .error .noDuration
    else if timeEvent.timeout > settings.maxTime ∨ timeEvent.timeout < settings.resolution then
      .error .outOfRange
    else if (timeService.events timeEvent.id).isSome then .error .alreadyActivated
    else .ok (timeService.store settings timeEvent)

/-- `std::list::erase` takes the node out of the list that it is linked in, whichever list it is
called on. -/
def cancel (timeService : TimeService) : Option TimeEvent → Bool × TimeService
  | none => (false, timeService)
  | some timeEvent => match timeService.events timeEvent.id with
    | none => (false, timeService)
    | some location => (true, { timeService with
      quantum := fun target => (timeService.quantum target).filter fun node => node.id ≠ location.node
      events := Function.update timeService.events timeEvent.id none })

/-- The body of the loop of `consume` over the events that are due. -/
def expire (settings : Settings) (timeService : TimeService) (node : Node) : TimeService :=
  let timeService := { timeService with
    events := Function.update timeService.events node.timeEvent.id none }
  if node.timeEvent.isPeriodical then timeService.store settings node.timeEvent else timeService

/-- `clear`, `splice` and the step of `currentQuantum`. -/
def advance (settings : Settings) (timeService : TimeService) : TimeService :=
  { timeService with
    quantum := Function.update
      (Function.update timeService.quantum (.timeTable timeService.currentQuantum)
        (timeService.quantum .temporaryQuantum)) .temporaryQuantum []
    currentQuantum := if timeService.currentQuantum + 1 = settings.maxQuantum then 0
      else timeService.currentQuantum + 1 }

/-- A pass of the inner loop of `consume`, and the events of which it notifies the observers. The
consumer runs until the service is stopped. -/
def consume (settings : Settings) (timeService : TimeService) : List TimeEvent × TimeService :=
  if timeService.stopped then ([], timeService)
  else
    let timedout := timeService.quantum (.timeTable timeService.currentQuantum)
    (timedout.map (·.timeEvent), (timedout.foldl (expire settings) timeService).advance settings)

def doStop (timeService : TimeService) : TimeService :=
  { timeService with stopped := true, events := fun _ => none }

/-- `doInitialize` starts the threads and changes none of the lists. -/
def doInitialize (timeService : TimeService) : TimeService := { timeService with stopped := false }

end TimeService

/-- The operations on a service that is running; `consume` processes a tick. -/
inductive Operation where
  | activate (timeEvent : Option TimeEvent)
  | cancel (timeEvent : Option TimeEvent)
  | consume
deriving DecidableEq, Repr

/-- What an operation leaves behind; a refused one changes nothing. -/
def TimeService.step (settings : Settings) (timeService : TimeService) : Operation → TimeService
  | .activate timeEvent => match timeService.activate settings timeEvent with
    | .ok timeService => timeService
    | .error _ => timeService
  | .cancel timeEvent => (timeService.cancel timeEvent).2
  | .consume => (timeService.consume settings).2

/-- `Runnable::stop`, and a later start of the service, between the operations. -/
inductive Call where
  | operation (operation : Operation)
  | stop
  | doInitialize
deriving DecidableEq, Repr

def TimeService.call (settings : Settings) (timeService : TimeService) : Call → TimeService
  | .operation operation => timeService.step settings operation
  | .stop => if timeService.stopped then timeService else timeService.doStop
  | .doInitialize => timeService.doInitialize

variable {settings : Settings}

theorem le_roundUp {maxTime resolution : Int} (fuel : Nat) {result : Int}
    (hfuel : maxTime ≤ (result + fuel) * resolution) :
    maxTime ≤ roundUp maxTime resolution fuel result * resolution := by
  induction fuel generalizing result with
  | zero => simpa [roundUp] using hfuel
  | succ fuel ih =>
    rw [roundUp]
    split
    · refine ih ?_
      rw [Int.natCast_succ] at hfuel
      rwa [add_assoc, add_comm 1]
    · next hnot => exact Int.not_lt.mp hnot

theorem Settings.le_maxQuantum (settings : Settings) :
    settings.maxTime ≤ settings.maxQuantum * settings.resolution := by
  have hpos := settings.resolution_pos
  have hlt := settings.resolution_lt
  have hdiv : 0 ≤ settings.maxTime / settings.resolution :=
    Int.ediv_nonneg (by omega) hpos.le
  have hfuel : settings.maxTime ≤
      (settings.maxTime / settings.resolution + settings.maxTime.toNat) * settings.resolution := by
    rw [Int.toNat_of_nonneg (by omega)]
    calc settings.maxTime = settings.maxTime * 1 := (Int.mul_one _).symm
      _ ≤ settings.maxTime * settings.resolution :=
        Int.mul_le_mul_of_nonneg_left (by omega) (by omega)
      _ ≤ (settings.maxTime / settings.resolution + settings.maxTime) * settings.resolution :=
        Int.mul_le_mul_of_nonneg_right (by omega) hpos.le
  refine (le_roundUp settings.maxTime.toNat hfuel).trans ?_
  exact Int.mul_le_mul_of_nonneg_right (Int.self_le_toNat _) hpos.le

theorem Settings.one_lt_maxQuantum (settings : Settings) : 1 < settings.maxQuantum := by
  have hle := settings.le_maxQuantum
  have hlt := settings.resolution_lt
  have hpos := settings.resolution_pos
  by_contra hnot
  have hone : (settings.maxQuantum : Int) ≤ 1 := by omega
  have hmul := Int.mul_le_mul_of_nonneg_right hone hpos.le
  omega

theorem Settings.quanta_mem (settings : Settings) {timeEvent : TimeEvent}
    (hle : timeEvent.timeout ≤ settings.maxTime) (hge : settings.resolution ≤ timeEvent.timeout) :
    1 ≤ settings.quanta timeEvent ∧ settings.quanta timeEvent ≤ settings.maxQuantum := by
  have hpos := settings.resolution_pos
  have hone : 1 ≤ timeEvent.timeout / settings.resolution :=
    (Int.le_ediv_iff_mul_le hpos).mpr (by omega)
  have hmax : timeEvent.timeout / settings.resolution ≤ settings.maxQuantum :=
    Int.ediv_le_of_le_mul hpos (hle.trans settings.le_maxQuantum)
  rw [Settings.quanta]
  omega

end Coffee.Time
