import Coffee.Basis.Text
import Coffee.Library.Runs
import Mathlib.Data.List.Nodup
import Mathlib.Logic.Function.Basic

/-! # The sockets of the networking service

Sockets are created before the service starts or while it runs. A start initializes them in their
order, and a stop destroys them. The broker polls the sockets that it knew when it last looked.
-/

namespace Coffee.Networking

open Coffee.Basis Coffee.Library Runs

inductive SocketType where
  | Server | Client | Publisher | Subscriber
deriving DecidableEq, Repr

def SocketType.binds : SocketType → Bool
  | .Server | .Publisher => true
  | .Client | .Subscriber => false

structure SocketArguments where
  m_endPoints : List Bytes
  hasMessageHandler : Bool
  m_name : Bytes
  m_subscriptions : List Bytes
deriving DecidableEq, Repr

structure Socket where
  type : SocketType
  m_endPoints : List Bytes
  hasMessageHandler : Bool
  m_subscriptions : List Bytes
deriving DecidableEq, Repr

inductive SocketException where
  | requiresMessageHandler | requiresSubscriptions | noEndPoint | noValidEndPoint | zmqError
deriving DecidableEq, Repr

/-- The endpoints that the sockets hold, each socket by its number. -/
structure Context where
  bound : List (Nat × Bytes)
  connected : List (Nat × Bytes)
deriving DecidableEq, Repr

/-- What ZeroMQ answers to a socket that asks for an endpoint, and to one that gives it back. -/
structure Answers where
  binds : Context → Nat → Bytes → Bool
  connects : Context → Nat → Bytes → Bool
  unbinds : Nat → Bytes → Bool
  disconnects : Nat → Bytes → Bool

def Answers.all : Answers :=
  ⟨fun _ _ _ => true, fun _ _ _ => true, fun _ _ => true, fun _ _ => true⟩

namespace Context

variable (answers : Answers) (context : Context) (i : Nat)

/-- The loop of `Socket::bind`, which goes on behind an endpoint that is refused. -/
def bindAll : List Bytes → Bool → Context → Bool × Context
  | [], someWorks, context => (someWorks, context)
  | endPoint :: endPoints, someWorks, context =>
    if answers.binds context i endPoint then
      bindAll endPoints true { context with bound := context.bound ++ [(i, endPoint)] }
    else bindAll endPoints someWorks context

/-- The loop of `Socket::connect`, which the first refusal ends. -/
def connectAll : List Bytes → Context → Bool × Context
  | [], context => (true, context)
  | endPoint :: endPoints, context =>
    if answers.connects context i endPoint then
      connectAll endPoints { context with connected := context.connected ++ [(i, endPoint)] }
    else (false, context)

def bind (endPoints : List Bytes) : Except SocketException Unit × Context :=
  if endPoints = [] then (.error .noEndPoint, context)
  else
    let (someWorks, context) := bindAll answers i endPoints false context
    (if someWorks then .ok () else .error .noValidEndPoint, context)

def connect (endPoints : List Bytes) : Except SocketException Unit × Context :=
  if endPoints = [] then (.error .noEndPoint, context)
  else
    let (works, context) := connectAll answers i endPoints context
    (if works then .ok () else .error .zmqError, context)

/-- The loop of `Socket::unbind`, which only logs a refusal. -/
def unbind (endPoints : List Bytes) : Context :=
  endPoints.foldl (fun context endPoint =>
    if answers.unbinds i endPoint then
      { context with bound := context.bound.filter (· ≠ (i, endPoint)) }
    else context) context

def disconnect (endPoints : List Bytes) : Context :=
  endPoints.foldl (fun context endPoint =>
    if answers.disconnects i endPoint then
      { context with connected := context.connected.filter (· ≠ (i, endPoint)) }
    else context) context

/-- The destructor of a socket. -/
def close : Context :=
  ⟨context.bound.filter (·.1 ≠ i), context.connected.filter (·.1 ≠ i)⟩

end Context

namespace Socket

variable (answers : Answers) (socket : Socket) (i : Nat) (context : Context)

/-- `initialize` of the four sockets. -/
def initializeSocket : Except SocketException Unit × Context :=
  match socket.type with
  | .Server =>
    if !socket.hasMessageHandler then (.error .requiresMessageHandler, context)
    else context.bind answers i socket.m_endPoints
  | .Client => context.connect answers i socket.m_endPoints
  | .Publisher => context.bind answers i socket.m_endPoints
  | .Subscriber =>
    if !socket.hasMessageHandler then (.error .requiresMessageHandler, context)
    else if socket.m_subscriptions = [] then (.error .requiresSubscriptions, context)
    else context.connect answers i socket.m_endPoints

def destroy : Context :=
  if socket.type.binds then context.unbind answers i socket.m_endPoints
  else context.disconnect answers i socket.m_endPoints

end Socket

/-- A poll is the list of the sockets behind its items. `m_broker` says whether its thread is still to
be joined, and `terminated` that the process is over. -/
structure NetworkingService where
  m_sockets : List Socket
  m_serverSockets : List Nat
  m_subscriberSockets : List Nat
  m_namedClientSockets : Bytes → Option Nat
  context : Context
  isRunning : Bool
  m_broker : Bool
  poll : Option (List Nat)
  terminated : Bool

namespace NetworkingService

def instantiate : NetworkingService :=
  ⟨[], [], [], fun _ => none, ⟨[], []⟩, false, false, none, false⟩

variable (answers : Answers) (service : NetworkingService)

def initializeFrom : Nat → List Socket → Context → Except SocketException Unit × Context
  | _, [], context => (.ok (), context)
  | i, socket :: sockets, context =>
    match socket.initializeSocket answers i context with
    | (.error ex, context) => (.error ex, context)
    | (.ok (), context) => initializeFrom (i + 1) sockets context

/-- `Service::initialize` around `do_initialize`. The status is no longer that of a running service
from the first socket on, so a broker ends; a thread that was not joined is not assigned to. -/
def start : Except SocketException Unit × NetworkingService :=
  match initializeFrom answers 0 service.m_sockets service.context with
  | (.error ex, context) => (.error ex, { service with context, isRunning := false, poll := none })
  | (.ok (), context) =>
    if service.m_broker then
      (.ok (), { service with context, isRunning := false, poll := none, terminated := true })
    else (.ok (), { service with context, isRunning := true, m_broker := true })

def destroyFrom : Nat → List Socket → Context → Context
  | _, [], context => context
  | i, socket :: sockets, context => destroyFrom (i + 1) sockets (socket.destroy answers i context)

/-- `do_stop`, which waits for the end of the broker and its poll. -/
def stop : NetworkingService :=
  if !service.isRunning then service
  else { service with
    context := destroyFrom answers 0 service.m_sockets service.context
    isRunning := false
    m_broker := false
    poll := none }

/-- What is done with a socket that is ready. -/
def register (socket : Socket) (name : Bytes) : NetworkingService :=
  let i := service.m_sockets.length
  let service := { service with m_sockets := service.m_sockets ++ [socket] }
  match socket.type with
  | .Server => { service with m_serverSockets := service.m_serverSockets ++ [i] }
  | .Client =>
    if name = [] then service
    else { service with
      m_namedClientSockets := Function.update service.m_namedClientSockets name (some i) }
  | .Publisher => service
  | .Subscriber => { service with m_subscriberSockets := service.m_subscriberSockets ++ [i] }

/-- A socket that cannot be initialized is closed with its last pointer. -/
def createSocket (type : SocketType) (arguments : SocketArguments) :
    Except SocketException Unit × NetworkingService :=
  let socket := ⟨type, arguments.m_endPoints, arguments.hasMessageHandler, arguments.m_subscriptions⟩
  let i := service.m_sockets.length
  if service.isRunning then
    match Socket.initializeSocket answers socket i service.context with
    | (.error ex, context) => (.error ex, { service with context := context.close i })
    | (.ok (), context) => (.ok (), { service with context }.register socket arguments.m_name)
  else (.ok (), service.register socket arguments.m_name)

def createServerSocket := createSocket answers service .Server
def createClientSocket := createSocket answers service .Client
def createPublisherSocket := createSocket answers service .Publisher
def createSubscriberSocket := createSocket answers service .Subscriber

def findClientSocket (name : Bytes) : Except RuntimeException Nat :=
  match service.m_namedClientSockets name with
  | none => .error ⟨text "Client socket named as '" ++ name ++ text " is not defined"⟩
  | some i => .ok i

namespace Poll

def instantiate : List Nat := service.m_serverSockets ++ service.m_subscriberSockets

def isOutdated (poll : List Nat) : Bool :=
  poll.length != service.m_serverSockets.length + service.m_subscriberSockets.length

end Poll

/-- One turn of the broker. -/
def broker : NetworkingService :=
  if !service.isRunning then service
  else match service.poll with
    | none => { service with poll := some (Poll.instantiate service) }
    | some poll =>
      if Poll.isOutdated service poll then { service with poll := some (Poll.instantiate service) }
      else service

inductive Call where
  | createSocket (answers : Answers) (type : SocketType) (arguments : SocketArguments)
  | start (answers : Answers)
  | broker
  | stop (answers : Answers)

def step (call : Call) : NetworkingService :=
  if service.terminated then service
  else match call with
    | .createSocket answers type arguments => (service.createSocket answers type arguments).2
    | .start answers => (service.start answers).2
    | .broker => service.broker
    | .stop answers => service.stop answers

end NetworkingService

/-- A socket with what it needs to do its work. -/
def Socket.Serves (socket : Socket) (i : Nat) (context : Context) : Prop :=
  (socket.type = .Server ∨ socket.type = .Subscriber → socket.hasMessageHandler = true) ∧
    (socket.type = .Subscriber → socket.m_subscriptions ≠ []) ∧
    if socket.type.binds then ∃ endPoint ∈ socket.m_endPoints, (i, endPoint) ∈ context.bound
    else socket.m_endPoints ≠ [] ∧
      ∀ endPoint ∈ socket.m_endPoints, (i, endPoint) ∈ context.connected

/-- What a socket holds is one of its endpoints. -/
def Holds (socket : Socket) (binds : Bool) (endPoint : Bytes) : Prop :=
  socket.type.binds = binds ∧ endPoint ∈ socket.m_endPoints

/-- What sockets add to the context, whether they are initialized or not. -/
structure Grows (sockets : Nat → Option Socket) (context context' : Context) : Prop where
  bound : context.bound ⊆ context'.bound
  connected : context.connected ⊆ context'.connected
  new_bound : ∀ binding ∈ context'.bound, binding ∈ context.bound ∨
    ∃ socket ∈ sockets binding.1, Holds socket true binding.2
  new_connected : ∀ connection ∈ context'.connected, connection ∈ context.connected ∨
    ∃ socket ∈ sockets connection.1, Holds socket false connection.2

variable {answers : Answers} {socket : Socket} {i : Nat} {context context' : Context}
  {sockets : Nat → Option Socket}

theorem Grows.refl (context : Context) : Grows sockets context context :=
  ⟨List.Subset.refl _, List.Subset.refl _, fun _ h => .inl h, fun _ h => .inl h⟩

theorem Grows.trans {context'' : Context} (h : Grows sockets context context')
    (h' : Grows sockets context' context'') : Grows sockets context context'' where
  bound := List.Subset.trans h.bound h'.bound
  connected := List.Subset.trans h.connected h'.connected
  new_bound binding hmem := by
    rcases h'.new_bound binding hmem with hmem | hnew
    · exact h.new_bound binding hmem
    · exact .inr hnew
  new_connected connection hmem := by
    rcases h'.new_connected connection hmem with hmem | hnew
    · exact h.new_connected connection hmem
    · exact .inr hnew

namespace Context

theorem bindAll_spec (endPoints : List Bytes) (someWorks : Bool) (context : Context) :
    ∃ new, (bindAll answers i endPoints someWorks context).2 =
        { context with bound := context.bound ++ new.map (i, ·) } ∧
      (bindAll answers i endPoints someWorks context).1 = (someWorks || !new.isEmpty) ∧
      new ⊆ endPoints := by
  induction endPoints generalizing someWorks context with
  | nil => exact ⟨[], by simp [bindAll], by simp [bindAll], List.Subset.refl _⟩
  | cons endPoint endPoints ih =>
    rw [bindAll]
    split
    · obtain ⟨new, hcontext, hworks, hsubset⟩ :=
        ih true { context with bound := context.bound ++ [(i, endPoint)] }
      refine ⟨endPoint :: new, ?_, ?_, List.cons_subset_cons endPoint hsubset⟩
      · rw [hcontext]
        simp
      · rw [hworks]
        simp
    · obtain ⟨new, hcontext, hworks, hsubset⟩ := ih someWorks context
      exact ⟨new, hcontext, hworks, fun other h => List.mem_cons_of_mem _ (hsubset h)⟩

theorem connectAll_spec (endPoints : List Bytes) (context : Context) :
    ∃ new, (connectAll answers i endPoints context).2 =
        { context with connected := context.connected ++ new.map (i, ·) } ∧
      new ⊆ endPoints ∧
      ((connectAll answers i endPoints context).1 = true → new = endPoints) := by
  induction endPoints generalizing context with
  | nil => exact ⟨[], by simp [connectAll], List.Subset.refl _, fun _ => rfl⟩
  | cons endPoint endPoints ih =>
    rw [connectAll]
    split
    · obtain ⟨new, hcontext, hsubset, hall⟩ :=
        ih { context with connected := context.connected ++ [(i, endPoint)] }
      refine ⟨endPoint :: new, ?_, List.cons_subset_cons endPoint hsubset, fun h => ?_⟩
      · rw [hcontext]
        simp
      · rw [hall h]
    · exact ⟨[], by simp, List.nil_subset _, by simp⟩

theorem grows_bind (hsocket : sockets i = some socket) (hbinds : socket.type.binds = true)
    (context : Context) : Grows sockets context (context.bind answers i socket.m_endPoints).2 ∧
      ((context.bind answers i socket.m_endPoints).1 = .ok () →
        ∃ endPoint ∈ socket.m_endPoints,
          (i, endPoint) ∈ (context.bind answers i socket.m_endPoints).2.bound) := by
  unfold bind
  split
  · exact ⟨Grows.refl context, by simp⟩
  · obtain ⟨new, hcontext, hworks, hsubset⟩ :=
      @bindAll_spec answers i socket.m_endPoints false context
    cases hbind : bindAll answers i socket.m_endPoints false context with
    | mk someWorks after =>
      rw [hbind] at hcontext hworks
      dsimp only at hcontext hworks ⊢
      subst hcontext hworks
      refine ⟨⟨List.subset_append_left _ _, List.Subset.refl _, ?_, fun _ h => .inl h⟩, ?_⟩
      · intro binding hmem
        refine (List.mem_append.mp hmem).imp_right fun hmem => ?_
        obtain ⟨endPoint, hendPoint, rfl⟩ := List.mem_map.mp hmem
        exact ⟨socket, hsocket, hbinds, hsubset hendPoint⟩
      · intro hok
        cases new with
        | nil => simp at hok
        | cons endPoint new => exact ⟨endPoint, hsubset List.mem_cons_self, by simp⟩

theorem grows_connect (hsocket : sockets i = some socket) (hbinds : socket.type.binds = false)
    (context : Context) :
    Grows sockets context (context.connect answers i socket.m_endPoints).2 ∧
      ((context.connect answers i socket.m_endPoints).1 = .ok () → socket.m_endPoints ≠ [] ∧
        ∀ endPoint ∈ socket.m_endPoints,
          (i, endPoint) ∈ (context.connect answers i socket.m_endPoints).2.connected) := by
  unfold connect
  split
  · exact ⟨Grows.refl context, by simp⟩
  · next hne =>
    obtain ⟨new, hcontext, hsubset, hall⟩ := @connectAll_spec answers i socket.m_endPoints context
    cases hconnect : connectAll answers i socket.m_endPoints context with
    | mk works after =>
      rw [hconnect] at hcontext hall
      dsimp only at hcontext hall ⊢
      subst hcontext
      refine ⟨⟨List.Subset.refl _, List.subset_append_left _ _, fun _ h => .inl h, ?_⟩, ?_⟩
      · intro connection hmem
        refine (List.mem_append.mp hmem).imp_right fun hmem => ?_
        obtain ⟨endPoint, hendPoint, rfl⟩ := List.mem_map.mp hmem
        exact ⟨socket, hsocket, hbinds, hsubset hendPoint⟩
      · intro hok
        cases works with
        | false => simp at hok
        | true =>
          obtain rfl := hall rfl
          exact ⟨hne, fun endPoint hendPoint => by simp [hendPoint]⟩

end Context

theorem Socket.initializeSocket_spec (answers : Answers) (hsocket : sockets i = some socket)
    (context : Context) :
    Grows sockets context (socket.initializeSocket answers i context).2 ∧
      ((socket.initializeSocket answers i context).1 = .ok () →
        socket.Serves i (socket.initializeSocket answers i context).2) := by
  unfold Socket.initializeSocket Socket.Serves
  cases htype : socket.type with
  | Server =>
    obtain ⟨hgrows, hserves⟩ :=
      @Context.grows_bind answers socket i sockets hsocket (by rw [htype]; rfl) context
    cases hhandler : socket.hasMessageHandler with
    | false => exact ⟨Grows.refl context, by simp⟩
    | true => exact ⟨hgrows, fun hok => ⟨by simp, by simp, hserves hok⟩⟩
  | Publisher =>
    obtain ⟨hgrows, hserves⟩ :=
      @Context.grows_bind answers socket i sockets hsocket (by rw [htype]; rfl) context
    exact ⟨hgrows, fun hok => ⟨by simp, by simp, hserves hok⟩⟩
  | Client =>
    obtain ⟨hgrows, hserves⟩ :=
      @Context.grows_connect answers socket i sockets hsocket (by rw [htype]; rfl) context
    exact ⟨hgrows, fun hok => ⟨by simp, by simp, hserves hok⟩⟩
  | Subscriber =>
    obtain ⟨hgrows, hserves⟩ :=
      @Context.grows_connect answers socket i sockets hsocket (by rw [htype]; rfl) context
    cases hhandler : socket.hasMessageHandler with
    | false => exact ⟨Grows.refl context, by simp⟩
    | true =>
      by_cases hsubscriptions : socket.m_subscriptions = []
      · simp [hsubscriptions, Grows.refl]
      · simp only [Bool.not_true, Bool.false_eq_true, if_false, if_neg hsubscriptions]
        exact ⟨hgrows, fun hok => ⟨by simp, fun _ => hsubscriptions, hserves hok⟩⟩

theorem Socket.Serves.mono (h : socket.Serves i context) (hbound : context.bound ⊆ context'.bound)
    (hconnected : context.connected ⊆ context'.connected) : socket.Serves i context' := by
  obtain ⟨hhandler, hsubscriptions, hholds⟩ := h
  refine ⟨hhandler, hsubscriptions, ?_⟩
  cases hbinds : socket.type.binds with
  | true =>
    rw [hbinds, if_pos rfl] at hholds
    obtain ⟨endPoint, hmem, hheld⟩ := hholds
    exact ⟨endPoint, hmem, hbound hheld⟩
  | false =>
    rw [hbinds, if_neg Bool.false_ne_true] at hholds
    exact ⟨hholds.1, fun endPoint hmem => hconnected (hholds.2 endPoint hmem)⟩

namespace NetworkingService

/-- The first exception ends the loop, and what the sockets in front of it hold is left to them. -/
theorem initializeFrom_spec (answers : Answers) {i : Nat} {rest : List Socket}
    (hrest : ∀ (k : Nat) socket, rest[k]? = some socket → sockets (i + k) = some socket)
    (context : Context) :
    Grows sockets context (initializeFrom answers i rest context).2 ∧
      ((initializeFrom answers i rest context).1 = .ok () →
        ∀ (k : Nat) (socket : Socket), rest[k]? = some socket →
          socket.Serves (i + k) (initializeFrom answers i rest context).2) := by
  induction rest generalizing i context with
  | nil => exact ⟨Grows.refl context, by simp⟩
  | cons socket rest ih =>
    obtain ⟨hgrows, hserves⟩ := Socket.initializeSocket_spec answers (hrest 0 socket rfl) context
    rw [Nat.add_zero] at hgrows hserves
    rw [initializeFrom]
    cases hsocket : socket.initializeSocket answers i context with
    | mk result after =>
      rw [hsocket] at hgrows hserves
      cases result with
      | error ex => exact ⟨hgrows, by simp⟩
      | ok _ =>
        obtain ⟨hrest, hothers⟩ := @ih (i + 1) (fun k other hother => by
          rw [Nat.add_assoc, Nat.add_comm 1 k]
          exact hrest (k + 1) other hother) after
        refine ⟨hgrows.trans hrest, fun hok k other hother => ?_⟩
        cases k with
        | zero =>
          cases hother
          exact (hserves rfl).mono hrest.bound hrest.connected
        | succ k =>
          have hother := hothers hok k other hother
          rwa [Nat.add_assoc, Nat.add_comm 1 k] at hother

/-! ## What a stop leaves -/

theorem unbind_spec (endPoints : List Bytes) (context : Context) :
    (context.unbind answers i endPoints).connected = context.connected ∧
      ∀ binding, binding ∈ (context.unbind answers i endPoints).bound ↔ binding ∈ context.bound ∧
        (binding.1 = i → binding.2 ∈ endPoints → answers.unbinds i binding.2 = false) := by
  induction endPoints generalizing context with
  | nil => exact ⟨rfl, fun binding => by simp [Context.unbind]⟩
  | cons endPoint endPoints ih =>
    obtain ⟨hconnected, hbound⟩ := ih (if answers.unbinds i endPoint then
      { context with bound := context.bound.filter (· ≠ (i, endPoint)) } else context)
    refine ⟨hconnected.trans (by split <;> rfl), fun binding => (hbound binding).trans ?_⟩
    obtain ⟨j, other⟩ := binding
    split
    · simp only [List.mem_filter, decide_eq_true_eq, Prod.mk.injEq, ne_eq, List.mem_cons]
      grind
    · simp only [List.mem_cons]
      grind

theorem disconnect_spec (endPoints : List Bytes) (context : Context) :
    (context.disconnect answers i endPoints).bound = context.bound ∧
      ∀ connection, connection ∈ (context.disconnect answers i endPoints).connected ↔
        connection ∈ context.connected ∧ (connection.1 = i → connection.2 ∈ endPoints →
          answers.disconnects i connection.2 = false) := by
  induction endPoints generalizing context with
  | nil => exact ⟨rfl, fun connection => by simp [Context.disconnect]⟩
  | cons endPoint endPoints ih =>
    obtain ⟨hbound, hconnected⟩ := ih (if answers.disconnects i endPoint then
      { context with connected := context.connected.filter (· ≠ (i, endPoint)) } else context)
    refine ⟨hbound.trans (by split <;> rfl), fun connection => (hconnected connection).trans ?_⟩
    obtain ⟨j, other⟩ := connection
    split
    · simp only [List.mem_filter, decide_eq_true_eq, Prod.mk.injEq, ne_eq, List.mem_cons]
      grind
    · simp only [List.mem_cons]
      grind

theorem destroy_spec (answers : Answers) (socket : Socket) (i : Nat) (context : Context) :
    (∀ binding, binding ∈ (socket.destroy answers i context).bound ↔ binding ∈ context.bound ∧
      (binding.1 = i → Holds socket true binding.2 → answers.unbinds i binding.2 = false)) ∧
    ∀ connection, connection ∈ (socket.destroy answers i context).connected ↔
      connection ∈ context.connected ∧ (connection.1 = i → Holds socket false connection.2 →
        answers.disconnects i connection.2 = false) := by
  unfold Socket.destroy
  cases hbinds : socket.type.binds with
  | true =>
    obtain ⟨hconnected, hbound⟩ := @unbind_spec answers i socket.m_endPoints context
    rw [if_pos rfl, hconnected]
    exact ⟨fun binding => by simp [hbound, Holds, hbinds], fun connection => by simp [Holds, hbinds]⟩
  | false =>
    obtain ⟨hbound, hconnected⟩ := @disconnect_spec answers i socket.m_endPoints context
    rw [if_neg Bool.false_ne_true, hbound]
    exact ⟨fun binding => by simp [Holds, hbinds],
      fun connection => by simp [hconnected, Holds, hbinds]⟩

theorem forall_from_cons {rest : List Socket} {j : Nat} {P : Socket → Prop} :
    (∀ k, j = i + k → ∀ other ∈ (socket :: rest)[k]?, P other) ↔
      (j = i → P socket) ∧ ∀ k, j = i + 1 + k → ∀ other ∈ rest[k]?, P other := by
  rw [← Nat.and_forall_add_one]
  simp [Nat.add_assoc, Nat.add_comm 1]

/-- What the sockets from `i` on give back of what they hold. -/
theorem destroyFrom_spec (answers : Answers) (rest : List Socket) (i : Nat) (context : Context) :
    (∀ binding, binding ∈ (destroyFrom answers i rest context).bound ↔ binding ∈ context.bound ∧
      ∀ k, binding.1 = i + k → ∀ socket ∈ rest[k]?, Holds socket true binding.2 →
        answers.unbinds binding.1 binding.2 = false) ∧
    ∀ connection, connection ∈ (destroyFrom answers i rest context).connected ↔
      connection ∈ context.connected ∧
      ∀ k, connection.1 = i + k → ∀ socket ∈ rest[k]?, Holds socket false connection.2 →
        answers.disconnects connection.1 connection.2 = false := by
  induction rest generalizing i context with
  | nil => exact ⟨fun binding => by simp [destroyFrom], fun connection => by simp [destroyFrom]⟩
  | cons socket rest ih =>
    obtain ⟨hbound, hconnected⟩ := destroy_spec answers socket i context
    obtain ⟨hrest, hrest'⟩ := ih (i + 1) (socket.destroy answers i context)
    rw [destroyFrom]
    constructor
    · rintro ⟨j, endPoint⟩
      rw [hrest, hbound, and_assoc, forall_from_cons]
      refine and_congr_right fun _ => and_congr_left fun _ => forall_congr' fun hj => ?_
      rw [hj]
    · rintro ⟨j, endPoint⟩
      rw [hrest', hconnected, and_assoc, forall_from_cons]
      refine and_congr_right fun _ => and_congr_left fun _ => forall_congr' fun hj => ?_
      rw [hj]

end NetworkingService

end Coffee.Networking
