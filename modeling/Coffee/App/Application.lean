import Coffee.Basis.Text
import Mathlib.Data.List.Sort
import Mathlib.Logic.Function.Basic

/-! # Applications and their services

`app::Application` starts its services in the order of a multimap, and a service first starts the
services it requires. Services are numbers, and their pure virtual methods are parameters.
-/

namespace Coffee.App

open Coffee.Basis

inductive Feature where
  | Database | Timing | Networking | UserDefined
deriving DecidableEq, Repr

def Feature.value : Feature → Nat
  | .Database => 0
  | .Timing => 1
  | .Networking => 2
  | .UserDefined => 3

inductive Status where
  | Stopped | Starting | Running | StoppedWithError
deriving DecidableEq, Repr

def Status.isStopped (status : Status) : Bool := status = .Stopped || status = .StoppedWithError

structure Requirement where
  m_feature : Feature
  m_implementation : Bytes
deriving DecidableEq, Repr

structure Service where
  m_feature : Feature
  m_implementation : Bytes
  m_requirements : List Requirement
deriving DecidableEq, Repr

def WhateverImplementation : Bytes := text "*"

/-- The virtual calls that the services got. -/
inductive Event where
  | doInitialize (service : Nat)
  | doStop (service : Nat)
deriving DecidableEq, Repr

/-- `services` says what the service of each number is, and `m_services` is the multimap in its
order. -/
structure Application where
  m_statusFlags : Status
  m_services : List Nat
  services : Nat → Service
  status : Nat → Status
  events : List Event

/-- What the virtual methods do: the services that a `doInitialize` attaches, and whether it, a
`doStop` and the `run` of the application return or throw. -/
structure Behaviour where
  doInitialize : Application → Nat → List Nat × Bool
  doStop : Application → Nat → Bool
  run : Application → Bool

/-- The end of a call that returns, `true`, or throws. `none` is no end within the fuel. -/
abbrev Result := Option (Bool × Application)

def Result.andThen (result : Result) (next : Application → Result) : Result :=
  match result with
  | some (true, application) => next application
  | _ => result

def forEach {α : Type} (body : Application → α → Result) (application : Application) :
    List α → Result
  | [] => some (true, application)
  | a :: as => (body application a).andThen fun application => forEach body application as

namespace Application

def instantiate (services : Nat → Service) : Application :=
  ⟨.Stopped, [], services, fun _ => .Stopped, []⟩

def feature (application : Application) (service : Nat) : Feature :=
  (application.services service).m_feature

def setStatus (application : Application) (service : Nat) (status : Status) : Application :=
  { application with status := Function.update application.status service status }

def called (application : Application) (event : Event) : Application :=
  { application with events := application.events ++ [event] }

def defined (application : Application) (service : Nat) : Bool :=
  application.m_services.any fun other =>
    application.feature other = application.feature service &&
      (application.services other).m_implementation =
        (application.services service).m_implementation

/-- `std::multimap::insert` puts an element behind those with the same key. -/
def insert (application : Application) (service : Nat) : Application :=
  { application with
    m_services := application.m_services.orderedInsert
      (fun a b => (application.feature a).value < (application.feature b).value) service }

def select (application : Application) (feature : Feature) (implementation : Bytes) : Option Nat :=
  let range := application.m_services.filter fun service => application.feature service = feature
  if implementation ≠ WhateverImplementation then
    range.find? fun service => (application.services service).m_implementation = implementation
  else range.head?

/-- `attach` of an application that is not running. -/
def register (application : Application) (service : Nat) : Application :=
  if application.defined service then application else application.insert service

def attach (start : Application → Nat → Result) (application : Application) (service : Nat) :
    Result :=
  if application.defined service then some (true, application)
  else if application.m_statusFlags = .Running then start (application.insert service) service
  else some (true, application.insert service)

def satisfy (start : Application → Nat → Result) (application : Application)
    (requirement : Requirement) : Result :=
  match application.select requirement.m_feature requirement.m_implementation with
  | none => some (false, application)
  | some selection => match application.status selection with
    | .Running => some (true, application)
    | .Starting => some (false, application)
    | .Stopped => start application selection
    | .StoppedWithError => start application selection

def doInitialize (behaviour : Behaviour) (start : Application → Nat → Result) (service : Nat)
    (application : Application) : Result :=
  let application := application.called (.doInitialize service)
  let (attached, returns) := behaviour.doInitialize application service
  (forEach (attach start) application attached).andThen fun application =>
    some (returns, application)

/-- `Service::initialize`. -/
def startService (behaviour : Behaviour) : Nat → Application → Nat → Result
  | 0, _, _ => none
  | fuel + 1, application, service =>
    let requirements := (application.services service).m_requirements
    match (forEach (satisfy (startService behaviour fuel)) (application.setStatus service .Starting)
      requirements).andThen (doInitialize behaviour (startService behaviour fuel) service) with
    | none => none
    | some (true, application) => some (true, application.setStatus service .Running)
    | some (false, application) => some (false, application.setStatus service .Stopped)

/-- The iterator behind that of a service. -/
def next (application : Application) (service : Nat) : Option Nat :=
  (application.m_services.dropWhile (· ≠ service)).tail.head?

/-- The loop of `startServices` from an iterator on. -/
def startServices (behaviour : Behaviour) : Nat → Application → Option Nat → Result
  | _, application, none => some (true, application)
  | 0, _, some _ => none
  | fuel + 1, application, some service =>
    (startService behaviour fuel application service).andThen fun application =>
      startServices behaviour fuel application (application.next service)

def stopService (behaviour : Behaviour) (application : Application) (service : Nat) :
    Bool × Application :=
  if (application.status service).isStopped then (true, application)
  else
    let application := application.called (.doStop service)
    let stops := behaviour.doStop application service
    (stops, application.setStatus service (if stops then .Stopped else .StoppedWithError))

def stopServices (behaviour : Behaviour) (application : Application) :
    List Nat → Bool × Application
  | [] => (true, application)
  | service :: services =>
    let (stops, application) := application.stopService behaviour service
    let (stop, application) := stopServices behaviour application services
    (stops && stop, application)

def stop (behaviour : Behaviour) (application : Application) : Bool × Application :=
  if application.m_statusFlags.isStopped then (true, application)
  else
    let (stops, application) := application.stopServices behaviour application.m_services
    (stops, { application with m_statusFlags := if stops then .Stopped else .StoppedWithError })

def started (behaviour : Behaviour) (fuel : Nat) (application : Application) : Result :=
  let application := { application with m_statusFlags := .Starting }
  (application.startServices behaviour fuel application.m_services.head?).andThen
    fun application => some (true, { application with m_statusFlags := .Running })

def start (behaviour : Behaviour) (fuel : Nat) (application : Application) : Result :=
  if application.m_statusFlags = .Running then some (false, application)
  else match application.started behaviour fuel with
  | none => none
  | some (false, application) => some (false, (application.stop behaviour).2)
  | some (true, application) =>
    let returns := behaviour.run application
    let (stops, application) := application.stop behaviour
    some (returns && stops, application)

end Application

end Coffee.App
