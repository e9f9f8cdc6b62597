import Coffee.Dbms.LockSafety
import Coffee.Library.Locks

/-! # Guards of connections and statements

A `GuardConnection` holds the mutex of its connection, and a `GuardStatement`, which is constructed
with a guarded connection, the mutex of its statement. Each thread destroys its guards in the reverse
order of their construction. The steps here are those of any number of threads, so a run is any
interleaving of them, and every call brings along how the database behaves in it.
-/

namespace Coffee.Dbms

open Coffee.Library

inductive Mutex (γ δ : Type) where
  | connection (connection : γ)
  | statement (statement : δ)
deriving DecidableEq, Repr

inductive Guard (γ δ : Type) where
  | GuardConnection (connection : γ) (m_countLinkedStatement : Int)
  | GuardStatement (m_guardConnection : γ) (statement : δ)
deriving DecidableEq, Repr

/-- The constructors of the guards, with their arguments. -/
inductive Construction (γ δ : Type) where
  | GuardConnection (connection : γ)
  | GuardStatement (guardConnection : γ) (statement : δ)
deriving DecidableEq, Repr

variable {ι γ δ σ : Type}

def Guard.mutex : Guard γ δ → Mutex γ δ
  | .GuardConnection connection _ => .connection connection
  | .GuardStatement _ statement => .statement statement

def Guard.add [DecidableEq γ] (connection : γ) (n : Int) : Guard γ δ → Guard γ δ
  | .GuardConnection c m_countLinkedStatement =>
    .GuardConnection c
      (if c = connection then m_countLinkedStatement + n else m_countLinkedStatement)
  | .GuardStatement c statement => .GuardStatement c statement

def Guard.linksTo [DecidableEq γ] (connection : γ) : Guard γ δ → Bool
  | .GuardConnection _ _ => false
  | .GuardStatement m_guardConnection _ => m_guardConnection = connection

def Construction.linksTo [DecidableEq γ] (connection : γ) : Construction γ δ → Bool
  | .GuardConnection _ => false
  | .GuardStatement guardConnection _ => guardConnection = connection

def Construction.mutex : Construction γ δ → Mutex γ δ
  | .GuardConnection connection => .connection connection
  | .GuardStatement _ statement => .statement statement

/-- The guard constructed last stands in front. A constructor that waits for a mutex is
`constructing`. -/
structure Guards.Thread (γ δ : Type) where
  guards : List (Guard γ δ)
  constructing : Option (Construction γ δ)
deriving DecidableEq, Repr

structure Guards (ι γ δ σ : Type) where
  connections : γ → Connection σ
  statements : δ → Bool
  threads : ι → Guards.Thread γ δ

namespace Guards

inductive Event (ι γ δ σ : Type) where
  | construct (thread : ι) (construction : Construction γ δ) (backend : Backend σ)
  | acquire (thread : ι) (backend : Backend σ)
  | use (thread : ι) (connection : γ) (use : Use) (backend : Backend σ)
  | destroy (thread : ι) (backend : Backend σ)
  | world (connection : γ) (change : σ → σ)

section Definitions

variable (s : Guards ι γ δ σ)

def held (i : ι) : List (Mutex γ δ) := (s.threads i).guards.map Guard.mutex

def wanted (i : ι) : Option (Mutex γ δ) := (s.threads i).constructing.map Construction.mutex

def locked : Mutex γ δ → Bool
  | .connection connection => (s.connections connection).m_mutex
  | .statement statement => s.statements statement

/-- Connections that nobody has locked yet. -/
def opened (database : γ → σ) (maxCommitPending : γ → Int) : Guards ι γ δ σ where
  connections c := ⟨0, false, maxCommitPending c, 0, false, database c⟩
  statements _ := false
  threads _ := ⟨[], none⟩

end Definitions

section Steps

variable [DecidableEq ι] [DecidableEq γ] [DecidableEq δ] (s : Guards ι γ δ σ)

def linkStatement (guards : List (Guard γ δ)) (connection : γ) : List (Guard γ δ) :=
  guards.map (Guard.add connection 1)

def unlinkStatement (guards : List (Guard γ δ)) (connection : γ) : List (Guard γ δ) :=
  guards.map (Guard.add connection (-1))

def setThread (i : ι) (thread : Thread γ δ) : Guards ι γ δ σ :=
  { s with threads := Function.update s.threads i thread }

def setConnection (c : γ) (connection : Connection σ) : Guards ι γ δ σ :=
  { s with connections := Function.update s.connections c connection }

def setStatement (statement : δ) (m_mutex : Bool) : Guards ι γ δ σ :=
  { s with statements := Function.update s.statements statement m_mutex }

/-- A constructor up to the mutex. The one of a statement's guard links itself to the guard of the
connection unless the connection is not available. -/
def construct (i : ι) (backend : Backend σ) : Construction γ δ → Guards ι γ δ σ
  | .GuardConnection c =>
    let made := (s.connections c).makeAvailable backend
    if made.1 then
      (s.setConnection c made.2).setThread i ⟨(s.threads i).guards, some (.GuardConnection c)⟩
    else s.setConnection c made.2
  | .GuardStatement c statement =>
    if .connection c ∈ s.held i ∧ backend.isAvailable (s.connections c).database = true then
      s.setThread i
        ⟨linkStatement (s.threads i).guards c, some (.GuardStatement c statement)⟩
    else s

/-- A constructor from the mutex on. A transaction that does not begin leaves the mutex locked. -/
def acquire (i : ι) (backend : Backend σ) : Construction γ δ → Guards ι γ δ σ
  | .GuardConnection c =>
    let acquired := (s.connections c).acquire backend
    (s.setConnection c acquired.2).setThread i
      ⟨match acquired.1 with
        | .ok () => .GuardConnection c 0 :: (s.threads i).guards
        | .error _ => (s.threads i).guards, none⟩
  | .GuardStatement c statement =>
    (s.setStatement statement true).setThread i
      ⟨.GuardStatement c statement :: (s.threads i).guards, none⟩

def destroy (i : ι) (backend : Backend σ) : List (Guard γ δ) → Guards ι γ δ σ
  | .GuardConnection c _ :: rest =>
    (s.setConnection c ((s.connections c).unlock backend)).setThread i ⟨rest, none⟩
  | .GuardStatement c statement :: rest =>
    (s.setStatement statement false).setThread i ⟨unlinkStatement rest c, none⟩
  | [] => s

/-- What a thread cannot do now changes nothing. -/
def step : Event ι γ δ σ → Guards ι γ δ σ
  | .construct i construction backend =>
    match (s.threads i).constructing with
    | none => s.construct i backend construction
    | some _ => s
  | .acquire i backend =>
    match (s.threads i).constructing with
    | none => s
    | some construction =>
      if s.locked construction.mutex then s else s.acquire i backend construction
  | .use i c use backend =>
    match (s.threads i).constructing with
    | none =>
      if .connection c ∈ s.held i then s.setConnection c (use.apply backend (s.connections c)) else s
    | some _ => s
  | .destroy i backend =>
    match (s.threads i).constructing with
    | none => s.destroy i backend (s.threads i).guards
    | some _ => s
  | .world c change =>
    s.setConnection c
      { s.connections c with database := change (s.connections c).database }

end Steps

section Projections

variable {s s' : Guards ι γ δ σ} {i : ι}

section Threads

variable [DecidableEq ι]

@[simp] theorem setThread_held (thread : Thread γ δ) : (s.setThread i thread).held =
    Function.update s.held i (thread.guards.map Guard.mutex) := by
  funext j
  by_cases hj : j = i <;> simp [held, setThread, hj]

@[simp] theorem setThread_wanted (thread : Thread γ δ) : (s.setThread i thread).wanted =
    Function.update s.wanted i (thread.constructing.map Construction.mutex) := by
  funext j
  by_cases hj : j = i <;> simp [wanted, setThread, hj]

@[simp] theorem setThread_locked (thread : Thread γ δ) :
    (s.setThread i thread).locked = s.locked := by
  funext m
  cases m <;> rfl

end Threads

theorem wanted_eq_none (h : (s.threads i).constructing = none) : s.wanted i = none := by
  rw [wanted, h]
  rfl

theorem wanted_of_constructing {construction : Construction γ δ}
    (h : (s.threads i).constructing = some construction) :
    s.wanted i = some construction.mutex := by
  rw [wanted, h]
  rfl

theorem setConnection_locked [DecidableEq γ] [DecidableEq δ] (c : γ) (connection : Connection σ) :
    (s.setConnection c connection).locked =
      Function.update s.locked (.connection c) connection.m_mutex := by
  funext m
  cases m with
  | connection c' => by_cases hc : c' = c <;> simp [locked, setConnection, hc]
  | statement statement => rfl

theorem setConnection_locked_of_eq [DecidableEq γ] {c : γ} {connection : Connection σ}
    (h : connection.m_mutex = (s.connections c).m_mutex) :
    (s.setConnection c connection).locked = s.locked := by
  funext m
  cases m with
  | connection c' => by_cases hc : c' = c <;> simp [locked, setConnection, hc, h]
  | statement statement => rfl

theorem setStatement_locked [DecidableEq γ] [DecidableEq δ] (statement : δ) (m_mutex : Bool) :
    (s.setStatement statement m_mutex).locked =
      Function.update s.locked (.statement statement) m_mutex := by
  funext m
  cases m with
  | connection c => rfl
  | statement other => by_cases hother : other = statement <;> simp [locked, setStatement, hother]

theorem map_mutex_add [DecidableEq γ] (guards : List (Guard γ δ)) (c : γ) (n : Int) :
    (guards.map (Guard.add c n)).map Guard.mutex = guards.map Guard.mutex := by
  rw [List.map_map]
  refine List.map_congr_left fun guard _ => ?_
  cases guard <;> rfl

variable [DecidableEq ι] [DecidableEq γ] [DecidableEq δ]

/-- The event reaches a mutex, or gives one back. -/
def Enabled (s : Guards ι γ δ σ) : Event ι γ δ σ → Prop
  | .construct i (.GuardConnection c) backend =>
    (s.threads i).constructing = none ∧ ((s.connections c).makeAvailable backend).1 = true
  | .construct i (.GuardStatement c _) backend =>
    (s.threads i).constructing = none ∧ .connection c ∈ s.held i ∧
      backend.isAvailable (s.connections c).database = true
  | .acquire i _ => ∃ construction, (s.threads i).constructing = some construction ∧
    s.locked construction.mutex = false
  | .destroy i _ => (s.threads i).constructing = none ∧ (s.threads i).guards ≠ []
  | .use _ _ _ _ | .world _ _ => False

/-- What a step does to the mutexes, to the guards and to the constructors that wait. -/
inductive Moves (s s' : Guards ι γ δ σ) : Event ι γ δ σ → Prop
  | stays {event} (hidle : ¬ s.Enabled event) (hlocked : s'.locked = s.locked)
    (hheld : s'.held = s.held) (hwanted : s'.wanted = s.wanted) : Moves s s' event
  | asks {i construction backend} (hrest : s.wanted i = none) (hlocked : s'.locked = s.locked)
    (hheld : s'.held = s.held)
    (hwanted : s'.wanted = Function.update s.wanted i (some construction.mutex)) :
    Moves s s' (.construct i construction backend)
  | takes {i construction backend} (hwaits : (s.threads i).constructing = some construction)
    (hfree : s.locked construction.mutex = false)
    (hbegins : ∀ c, construction = .GuardConnection c → (s.connections c).Begins backend)
    (hlocked : s'.locked = Function.update s.locked construction.mutex true)
    (hheld : s'.held = Function.update s.held i (construction.mutex :: s.held i))
    (hwanted : s'.wanted = Function.update s.wanted i none) : Moves s s' (.acquire i backend)
  | loses {i c backend} (hwaits : (s.threads i).constructing = some (.GuardConnection c))
    (hfree : s.locked (.connection c) = false)
    (hthrows : ¬ (s.connections c).Begins backend)
    (hlocked : s'.locked = Function.update s.locked (.connection c) true)
    (hheld : s'.held = s.held) (hwanted : s'.wanted = Function.update s.wanted i none) :
    Moves s s' (.acquire i backend)
  | releases {i m rest backend} (hrest : s.wanted i = none) (hguards : s.held i = m :: rest)
    (hlocked : s'.locked = Function.update s.locked m false)
    (hheld : s'.held = Function.update s.held i rest)
    (hwanted : s'.wanted = Function.update s.wanted i none) : Moves s s' (.destroy i backend)

theorem construct_moves {construction : Construction γ δ} {backend : Backend σ}
    (hrest : (s.threads i).constructing = none) :
    Moves s (s.construct i backend construction) (.construct i construction backend) := by
  have hwanted := wanted_eq_none hrest
  cases construction with
  | GuardConnection c =>
    simp only [construct]
    split
    · refine .asks hwanted ?_ ?_ ?_
      · exact (setThread_locked _).trans (setConnection_locked_of_eq rfl)
      · rw [setThread_held]
        exact Function.update_eq_self ..
      · rw [setThread_wanted]
        rfl
    next hunavailable =>
      exact .stays (fun h => hunavailable h.2) (setConnection_locked_of_eq rfl) rfl rfl
  | GuardStatement c statement =>
    rw [construct]
    split
    · refine .asks hwanted (setThread_locked _) ?_ ?_
      · rw [setThread_held, linkStatement, map_mutex_add]
        exact Function.update_eq_self ..
      · rw [setThread_wanted]
        rfl
    next hunlinked => exact .stays (fun h => hunlinked h.2) rfl rfl rfl

theorem acquire_moves {construction : Construction γ δ} {backend : Backend σ}
    (hwaits : (s.threads i).constructing = some construction)
    (hfree : s.locked construction.mutex = false) :
    Moves s (s.acquire i backend construction) (.acquire i backend) := by
  cases construction with
  | GuardConnection c =>
    obtain ⟨hmutex, -, hbegins⟩ := Connection.acquire_cases backend (s.connections c)
    have hlocked : ∀ thread,
        ((s.setConnection c ((s.connections c).acquire backend).2).setThread i thread).locked =
          Function.update s.locked (.connection c) true := by
      intro thread
      rw [setThread_locked, setConnection_locked, hmutex]
    rw [acquire]
    cases hresult : ((s.connections c).acquire backend).1 with
    | ok _ =>
      refine .takes hwaits hfree (fun c' heq => ?_) (hlocked _) ?_ ?_
      · cases heq
        exact hbegins.mp hresult
      · rw [setThread_held]
        rfl
      · rw [setThread_wanted]
        rfl
    | error ex =>
      refine .loses hwaits hfree (fun hbegin => ?_) (hlocked _) ?_ ?_
      · rw [hbegins.mpr hbegin] at hresult
        cases hresult
      · rw [setThread_held]
        exact Function.update_eq_self ..
      · rw [setThread_wanted]
        rfl
  | GuardStatement c statement =>
    rw [acquire]
    refine .takes hwaits hfree (fun c' heq => by cases heq) ?_ ?_ ?_
    · rw [setThread_locked, setStatement_locked]
      rfl
    · rw [setThread_held]
      rfl
    · rw [setThread_wanted]
      rfl

theorem destroy_moves {backend : Backend σ} (hrest : (s.threads i).constructing = none) :
    Moves s (s.destroy i backend (s.threads i).guards) (.destroy i backend) := by
  have hwanted := wanted_eq_none hrest
  cases hguards : (s.threads i).guards with
  | nil => exact .stays (fun h => h.2 hguards) rfl rfl rfl
  | cons guard rest =>
    have hheld : s.held i = guard.mutex :: rest.map Guard.mutex := by
      rw [held, hguards]
      rfl
    cases guard with
    | GuardConnection c m_countLinkedStatement =>
      refine .releases hwanted hheld ?_ ?_ ?_
      · rw [destroy, setThread_locked, setConnection_locked]
        rfl
      · rw [destroy, setThread_held]
        rfl
      · rw [destroy, setThread_wanted]
        rfl
    | GuardStatement c statement =>
      refine .releases hwanted hheld ?_ ?_ ?_
      · rw [destroy, setThread_locked, setStatement_locked]
        rfl
      · rw [destroy, setThread_held, unlinkStatement, map_mutex_add]
        rfl
      · rw [destroy, setThread_wanted]
        rfl

theorem step_moves (s : Guards ι γ δ σ) (event : Event ι γ δ σ) : Moves s (s.step event) event := by
  cases event with
  | construct i construction backend =>
    rw [step]
    split
    next hrest => exact construct_moves hrest
    next hbusy =>
      refine .stays (fun h => ?_) rfl rfl rfl
      cases construction <;> exact absurd (hbusy.symm.trans h.1) (Option.some_ne_none _)
  | acquire i backend =>
    rw [step]
    split
    next hrest =>
      refine .stays (fun ⟨_, hwaits, _⟩ => ?_) rfl rfl rfl
      exact absurd (hwaits.symm.trans hrest) (Option.some_ne_none _)
    next construction hwaits =>
      split
      next hlocked =>
        refine .stays (fun ⟨_, hother, hfree⟩ => ?_) rfl rfl rfl
        cases hwaits.symm.trans hother
        rw [hlocked] at hfree
        cases hfree
      next hlocked => exact acquire_moves hwaits (by simpa using hlocked)
  | use i c use backend =>
    rw [step]
    split
    next =>
      split
      next => exact .stays id (setConnection_locked_of_eq (use.apply_keeps backend _).1) rfl rfl
      next => exact .stays id rfl rfl rfl
    next => exact .stays id rfl rfl rfl
  | destroy i backend =>
    rw [step]
    split
    next hrest => exact destroy_moves hrest
    next hbusy =>
      refine .stays (fun h => ?_) rfl rfl rfl
      exact absurd (hbusy.symm.trans h.1) (Option.some_ne_none _)
  | world c change => exact .stays id (setConnection_locked_of_eq rfl) rfl rfl

end Projections

section Simulation

variable [DecidableEq ι] [DecidableEq γ] [DecidableEq δ]

def locks (s : Guards ι γ δ σ) : Locks ι (Mutex γ δ) := .ofLocked s.locked s.held s.wanted

/-- A thread asks only for what the rules allow, and only the transactions of those connections may
fail to begin that the rules say it of. -/
def Follows (r : Locks.Rules (Mutex γ δ)) (s : Guards ι γ δ σ) : Event ι γ δ σ → Prop
  | .construct i construction _ => r.allows (s.held i) construction.mutex
  | .acquire i backend => ∀ c, (s.threads i).constructing = some (.GuardConnection c) →
    s.locked (.connection c) = false →
      (s.connections c).Begins backend ∨ r.loses (.connection c)
  | .use _ _ _ _ | .destroy _ _ | .world _ _ => True

def Taken (s : Guards ι γ δ σ) : Prop := ∀ i, ∀ m ∈ s.held i, s.locked m = true

variable {s : Guards ι γ δ σ} {r : Locks.Rules (Mutex γ δ)} {event : Event ι γ δ σ}

/-- A step of the guards is a step of the locks behind them, or none. -/
theorem locks_step (htaken : s.Taken) (hfollows : s.Follows r event) :
    Locks.Reaches r s.locks (s.step event).locks := by
  have hfree : ∀ m, s.locked m = false → s.locks.Free m :=
    fun m hm => (Locks.free_ofLocked htaken).mpr hm
  cases s.step_moves event with
  | stays hidle hlocked hheld hwanted =>
    rw [locks, locks, hlocked, hheld, hwanted]
    exact .refl
  | asks hrest hlocked hheld hwanted =>
    rw [locks, locks, hlocked, hheld, hwanted, Locks.ofLocked_ask]
    exact .single (.ask hrest hfollows)
  | takes hwaits hunlocked hbegins hlocked hheld hwanted =>
    rw [locks, locks, hlocked, hheld, hwanted, Locks.ofLocked_take hunlocked]
    exact .single (.take (wanted_of_constructing hwaits) (hfree _ hunlocked))
  | loses hwaits hunlocked hthrows hlocked hheld hwanted =>
    rw [locks, locks, hlocked, hheld, hwanted, Locks.ofLocked_lose htaken hunlocked]
    have hloses := (hfollows _ hwaits hunlocked).resolve_left hthrows
    exact .single (.lose (wanted_of_constructing hwaits) (hfree _ hunlocked) hloses)
  | releases hrest hguards hlocked hheld hwanted =>
    rw [locks, locks, hlocked, hheld, hwanted, Locks.ofLocked_release hguards]
    exact .single (.release hrest hguards)

omit [DecidableEq ι] [DecidableEq γ] [DecidableEq δ] in
theorem follows_any : s.Follows .any event := by
  cases event with
  | construct => trivial
  | acquire => exact fun _ _ _ => .inr trivial
  | use | destroy | world => trivial

theorem Taken.step (htaken : s.Taken) (hsound : s.locks.Sound .any) : (s.step event).Taken := by
  intro j m hm
  cases s.step_moves event with
  | stays hidle hlocked hheld hwanted =>
    rw [hheld] at hm
    rw [hlocked]
    exact htaken j m hm
  | asks hrest hlocked hheld hwanted =>
    rw [hheld] at hm
    rw [hlocked]
    exact htaken j m hm
  | takes hwaits hunlocked hbegins hlocked hheld hwanted =>
    rw [hheld, Function.update_apply] at hm
    rw [hlocked, Function.update_apply]
    split
    next => rfl
    next hne =>
      split at hm
      next => exact htaken _ m ((List.mem_cons.mp hm).resolve_left hne)
      next => exact htaken j m hm
  | loses hwaits hunlocked hthrows hlocked hheld hwanted =>
    rw [hheld] at hm
    rw [hlocked, Function.update_apply]
    split
    next => rfl
    next => exact htaken j m hm
  | @releases i m' rest backend hrest hguards hlocked hheld hwanted =>
    have hmem : m' ∈ s.held i := hguards ▸ List.mem_cons_self
    have hold : m ∈ s.held j ∧ m ≠ m' := by
      rw [hheld, Function.update_apply] at hm
      split at hm
      next hji =>
        have hnodup : (m' :: rest).Nodup := hguards ▸ hsound.nodup i
        rw [hji, hguards]
        exact ⟨.tail _ hm, fun heq => (List.nodup_cons.mp hnodup).1 (heq ▸ hm)⟩
      next hji => exact ⟨hm, fun heq => hji (hsound.apart j i m' (heq ▸ hm) hmem)⟩
    rw [hlocked, Function.update_of_ne hold.2]
    exact htaken j m hold.1

end Simulation

section Counters

variable [DecidableEq γ]

/-- How many guards of statements are linked to the guard of a connection. -/
def Thread.linked (thread : Thread γ δ) (c : γ) : Nat :=
  thread.guards.countP (Guard.linksTo c) + thread.constructing.toList.countP (Construction.linksTo c)

/-- The guard of a statement stands above the one of its connection. -/
def Founded : List (Guard γ δ) → Prop
  | [] => True
  | .GuardConnection _ _ :: rest => Founded rest
  | .GuardStatement c _ :: rest => .connection c ∈ rest.map Guard.mutex ∧ Founded rest

structure Thread.Fits (thread : Thread γ δ) : Prop where
  counted : ∀ c (n : Int), .GuardConnection c n ∈ thread.guards → n = thread.linked c
  founded : Founded thread.guards
  based : ∀ c statement, thread.constructing = some (.GuardStatement c statement) →
    .connection c ∈ thread.guards.map Guard.mutex

variable {guards rest : List (Guard γ δ)} {c : γ} {statement : δ}

omit [DecidableEq γ] in
theorem Founded.mem (h : Founded guards) (hmem : .GuardStatement c statement ∈ guards) :
    .connection c ∈ guards.map Guard.mutex := by
  induction guards with
  | nil => cases hmem
  | cons guard rest ih =>
    cases guard with
    | GuardConnection c' n =>
      rcases List.mem_cons.mp hmem with hmem | hmem
      · cases hmem
      · exact .tail _ (ih h hmem)
    | GuardStatement c' other =>
      rcases List.mem_cons.mp hmem with hmem | hmem
      · cases hmem
        exact .tail _ h.1
      · exact .tail _ (ih h.2 hmem)

omit [DecidableEq γ] in
theorem Founded.tail {guard : Guard γ δ} (h : Founded (guard :: rest)) : Founded rest := by
  cases guard with
  | GuardConnection _ _ => exact h
  | GuardStatement _ _ => exact h.2

theorem founded_add {n : Int} : Founded (guards.map (Guard.add c n)) ↔ Founded guards := by
  induction guards with
  | nil => exact Iff.rfl
  | cons guard rest ih =>
    cases guard with
    | GuardConnection _ _ => exact ih
    | GuardStatement _ _ => exact and_congr (by rw [map_mutex_add]) ih

theorem countP_add {c' : γ} {n : Int} :
    (guards.map (Guard.add c n)).countP (Guard.linksTo c') = guards.countP (Guard.linksTo c') := by
  rw [List.countP_map]
  refine List.countP_congr fun guard _ => ?_
  cases guard <;> rfl

theorem mem_add {c' : γ} {n m : Int} (h : .GuardConnection c' m ∈ guards.map (Guard.add c n)) :
    ∃ m', .GuardConnection c' m' ∈ guards ∧ m = if c' = c then m' + n else m' := by
  obtain ⟨guard, hguard, heq⟩ := List.mem_map.mp h
  cases guard with
  | GuardConnection c'' m' =>
    cases heq
    exact ⟨m', hguard, rfl⟩
  | GuardStatement _ _ => cases heq

theorem countP_eq_zero (hfounded : Founded guards) (hfree : .connection c ∉ guards.map Guard.mutex) :
    guards.countP (Guard.linksTo c) = 0 := by
  refine List.countP_eq_zero.mpr fun guard hguard hlinks => ?_
  cases guard with
  | GuardConnection _ _ => cases hlinks
  | GuardStatement c' statement =>
    have heq : c' = c := by simpa [Guard.linksTo] using hlinks
    exact hfree (heq ▸ hfounded.mem hguard)

theorem fits_construct_connection (h : (⟨guards, none⟩ : Thread γ δ).Fits) (c : γ) :
    (⟨guards, some (.GuardConnection c)⟩ : Thread γ δ).Fits where
  counted := h.counted
  founded := h.founded
  based c statement h := by cases h

theorem fits_construct_statement (h : (⟨guards, none⟩ : Thread γ δ).Fits)
    (hc : .connection c ∈ guards.map Guard.mutex) (statement : δ) :
    (⟨linkStatement guards c, some (.GuardStatement c statement)⟩ : Thread γ δ).Fits where
  counted c' n hmem := by
    obtain ⟨m, hm, rfl⟩ := mem_add hmem
    have hcounted := h.counted c' m hm
    simp only [Thread.linked, linkStatement, countP_add] at hcounted ⊢
    by_cases hcc : c' = c
    · simp [hcc, Construction.linksTo] at hcounted ⊢
      omega
    · simp [hcc, Ne.symm hcc, Construction.linksTo] at hcounted ⊢
      omega
  founded := founded_add.mpr h.founded
  based c' _ heq := by
    cases heq
    rw [linkStatement, map_mutex_add]
    exact hc

theorem fits_acquire_connection (h : (⟨guards, some (.GuardConnection c)⟩ : Thread γ δ).Fits)
    (hfree : .connection c ∉ guards.map Guard.mutex) :
    (⟨.GuardConnection c 0 :: guards, none⟩ : Thread γ δ).Fits where
  counted c' n hmem := by
    simp only [Thread.linked, List.countP_cons, Guard.linksTo]
    rcases List.mem_cons.mp hmem with heq | hmem
    · cases heq
      simp [countP_eq_zero h.founded hfree]
    · have hcounted := h.counted c' n hmem
      simpa [Thread.linked, Construction.linksTo] using hcounted
  founded := h.founded
  based _ _ heq := by cases heq

theorem fits_acquire_statement
    (h : (⟨guards, some (.GuardStatement c statement)⟩ : Thread γ δ).Fits) :
    (⟨.GuardStatement c statement :: guards, none⟩ : Thread γ δ).Fits where
  counted c' n hmem := by
    rcases List.mem_cons.mp hmem with heq | hmem
    · cases heq
    · have hcounted := h.counted c' n hmem
      simpa [Thread.linked, List.countP_cons, Guard.linksTo, Construction.linksTo] using hcounted
  founded := ⟨h.based c statement rfl, h.founded⟩
  based _ _ heq := by cases heq

theorem fits_rest
    (h : (⟨guards, some (.GuardConnection c)⟩ : Thread γ δ).Fits) :
    (⟨guards, none⟩ : Thread γ δ).Fits where
  counted := h.counted
  founded := h.founded
  based _ _ heq := by cases heq

theorem fits_destroy_connection {n : Int}
    (h : (⟨.GuardConnection c n :: rest, none⟩ : Thread γ δ).Fits) :
    (⟨rest, none⟩ : Thread γ δ).Fits where
  counted c' m hmem := by
    have hcounted := h.counted c' m (.tail _ hmem)
    simpa [Thread.linked, List.countP_cons, Guard.linksTo] using hcounted
  founded := h.founded
  based _ _ heq := by cases heq

theorem fits_destroy_statement
    (h : (⟨.GuardStatement c statement :: rest, none⟩ : Thread γ δ).Fits) :
    (⟨unlinkStatement rest c, none⟩ : Thread γ δ).Fits where
  counted c' n hmem := by
    obtain ⟨m, hm, rfl⟩ := mem_add hmem
    have hcounted := h.counted c' m (.tail _ hm)
    simp only [Thread.linked, unlinkStatement, countP_add, List.countP_cons] at hcounted ⊢
    by_cases hcc : c' = c
    · simp [hcc, Guard.linksTo] at hcounted ⊢
      omega
    · simp [hcc, Ne.symm hcc, Guard.linksTo] at hcounted ⊢
      omega
  founded := founded_add.mpr h.founded.2
  based _ _ heq := by cases heq

end Counters

section Runs

/-- The counter is one while the mutex is locked, and zero otherwise. -/
def Counted (connection : Connection σ) : Prop :=
  connection.m_lockingCounter = if connection.m_mutex then 1 else 0

variable [DecidableEq ι] [DecidableEq γ] [DecidableEq δ]

structure Consistent (s : Guards ι γ δ σ) : Prop where
  sound : s.locks.Sound .any
  taken : s.Taken
  counter : ∀ c, Counted (s.connections c)
  fits : ∀ i, (s.threads i).Fits

variable {s : Guards ι γ δ σ} {i : ι} {c : γ} {backend : Backend σ}

omit [DecidableEq ι] [DecidableEq γ] [DecidableEq δ] in
theorem Taken.counter_eq (htaken : s.Taken) (hcounter : Counted (s.connections c))
    (hheld : .connection c ∈ s.held i) : (s.connections c).m_lockingCounter = 1 := by
  have hlocked : (s.connections c).m_mutex = true := htaken i _ hheld
  rw [hcounter, hlocked, if_pos rfl]

omit [DecidableEq ι] [DecidableEq δ] in
theorem counted_setConnection (h : ∀ c, Counted (s.connections c)) {connection : Connection σ}
    (hconnection : Counted connection) (c' : γ) :
    Counted ((s.setConnection c connection).connections c') := by
  simp only [setConnection, Function.update_apply]
  split
  · exact hconnection
  · exact h c'

theorem Consistent.counter_step (h : s.Consistent) (event : Event ι γ δ σ) :
    ∀ c, Counted ((s.step event).connections c) := by
  have hkeeps : ∀ c (connection : Connection σ),
      connection.m_mutex = (s.connections c).m_mutex ∧
        connection.m_lockingCounter = (s.connections c).m_lockingCounter →
      ∀ c', Counted ((s.setConnection c connection).connections c') := by
    rintro c connection ⟨hmutex, hcounter⟩
    refine counted_setConnection h.counter ?_
    rw [Counted, hmutex, hcounter]
    exact h.counter c
  cases event with
  | construct i construction backend =>
    rw [step]
    split
    next =>
      cases construction with
      | GuardConnection c =>
        simp only [construct]
        split <;> exact hkeeps c _ ⟨rfl, rfl⟩
      | GuardStatement c statement =>
        rw [construct]
        split <;> exact h.counter
    next => exact h.counter
  | acquire i backend =>
    rw [step]
    split
    next => exact h.counter
    next construction hwaits =>
      split
      next => exact h.counter
      next hfree =>
        cases construction with
        | GuardStatement c statement => exact h.counter
        | GuardConnection c =>
          obtain ⟨hmutex, hcounter, -⟩ := Connection.acquire_cases backend (s.connections c)
          have hzero : (s.connections c).m_lockingCounter = 0 := by
            rw [h.counter c]
            exact if_neg hfree
          refine counted_setConnection h.counter ?_
          rw [Counted, hmutex, hcounter, hzero]
          rfl
  | use i c use backend =>
    rw [step]
    split
    next =>
      split
      next => exact hkeeps c _ (use.apply_keeps backend _)
      next => exact h.counter
    next => exact h.counter
  | world c change => exact hkeeps c _ ⟨rfl, rfl⟩
  | destroy i backend =>
    rw [step]
    split
    next =>
      cases hguards : (s.threads i).guards with
      | nil => exact h.counter
      | cons guard rest =>
        cases guard with
        | GuardStatement c statement => exact h.counter
        | GuardConnection c n =>
          have hheld : .connection c ∈ s.held i := by
            rw [held, hguards]
            exact List.mem_cons_self
          obtain ⟨hmutex, hzero⟩ :=
            Connection.unlock_free backend (h.taken.counter_eq (h.counter c) hheld)
          refine counted_setConnection h.counter ?_
          rw [Counted, hmutex, hzero]
          rfl
    next => exact h.counter

omit [DecidableEq δ] in
theorem fits_setThread (h : ∀ i, (s.threads i).Fits) {thread : Thread γ δ} (hthread : thread.Fits)
    (j : ι) : ((s.setThread i thread).threads j).Fits := by
  simp only [setThread, Function.update_apply]
  split
  · exact hthread
  · exact h j

omit [DecidableEq γ] [DecidableEq δ] in
theorem Thread.eq_mk {thread : Thread γ δ} {constructing : Option (Construction γ δ)}
    (h : thread.constructing = constructing) : thread = ⟨thread.guards, constructing⟩ := by
  cases thread
  cases h
  rfl

theorem Consistent.fits_step (h : s.Consistent) (event : Event ι γ δ σ) :
    ∀ i, ((s.step event).threads i).Fits := by
  cases event with
  | construct i construction backend =>
    rw [step]
    split
    next hrest =>
      have hfits := Thread.eq_mk hrest ▸ h.fits i
      cases construction with
      | GuardConnection c =>
        simp only [construct]
        split
        · exact fits_setThread h.fits (fits_construct_connection hfits c)
        · exact h.fits
      | GuardStatement c statement =>
        rw [construct]
        split
        next hlinks => exact fits_setThread h.fits (fits_construct_statement hfits hlinks.1 statement)
        next => exact h.fits
    next => exact h.fits
  | acquire i backend =>
    rw [step]
    split
    next => exact h.fits
    next construction hwaits =>
      have hfits := Thread.eq_mk hwaits ▸ h.fits i
      split
      next => exact h.fits
      next hunlocked =>
        cases construction with
        | GuardStatement c statement =>
          exact fits_setThread h.fits (fits_acquire_statement hfits)
        | GuardConnection c =>
          have hfree : .connection c ∉ (s.threads i).guards.map Guard.mutex :=
            fun hheld => hunlocked (h.taken i _ hheld)
          simp only [acquire]
          split
          · exact fits_setThread h.fits (fits_acquire_connection hfits hfree)
          · exact fits_setThread h.fits (fits_rest hfits)
  | use i c use backend =>
    rw [step]
    split
    next => split <;> exact h.fits
    next => exact h.fits
  | world c change => exact h.fits
  | destroy i backend =>
    rw [step]
    split
    next hrest =>
      have hfits := Thread.eq_mk hrest ▸ h.fits i
      cases hguards : (s.threads i).guards with
      | nil => exact h.fits
      | cons guard rest =>
        rw [hguards] at hfits
        cases guard with
        | GuardStatement c statement => exact fits_setThread h.fits (fits_destroy_statement hfits)
        | GuardConnection c n => exact fits_setThread h.fits (fits_destroy_connection hfits)
    next => exact h.fits

theorem Consistent.step (h : s.Consistent) (event : Event ι γ δ σ) : (s.step event).Consistent where
  sound := h.sound.reaches (locks_step h.taken follows_any)
  taken := h.taken.step h.sound
  counter := h.counter_step event
  fits := h.fits_step event

omit [DecidableEq ι] [DecidableEq γ] [DecidableEq δ] in
theorem locks_opened (database : γ → σ) (maxCommitPending : γ → Int) :
    (opened database maxCommitPending : Guards ι γ δ σ).locks = .idle := by
  refine Locks.ext rfl rfl (Set.ext fun m => iff_of_false ?_ fun h => h)
  rintro ⟨hlocked, -⟩
  cases m <;> cases hlocked

omit [DecidableEq ι] [DecidableEq δ] in
theorem consistent_opened (database : γ → σ) (maxCommitPending : γ → Int) :
    (opened database maxCommitPending : Guards ι γ δ σ).Consistent where
  sound := by
    rw [locks_opened]
    exact Locks.sound_idle
  taken _ m hm := by cases hm
  counter _ := rfl
  fits _ := ⟨fun _ _ h => (by cases h), trivial, fun _ _ h => (by cases h)⟩

/-- A connection's counter tells whether its mutex is locked, no mutex is held by two guards, the
guard of a statement lies inside the one of its connection, and a guard of a connection knows how
many statements are linked to it: none when it is destroyed. -/
structure WellNested (s : Guards ι γ δ σ) : Prop where
  counter : ∀ c, (s.connections c).m_lockingCounter = if (s.connections c).m_mutex then 1 else 0
  locked : ∀ i, ∀ m ∈ s.held i, s.locked m = true
  exclusive : ∀ i j m, m ∈ s.held i → m ∈ s.held j → i = j
  nodup : ∀ i, (s.held i).Nodup
  guarded : ∀ i c statement, .GuardStatement c statement ∈ (s.threads i).guards →
    .connection c ∈ s.held i
  counted : ∀ i c (n : Int), .GuardConnection c n ∈ (s.threads i).guards →
    n = (s.threads i).linked c
  unlinked : ∀ i c (n : Int) rest, s.threads i = ⟨.GuardConnection c n :: rest, none⟩ → n = 0

omit [DecidableEq ι] [DecidableEq δ] in
theorem Consistent.wellNested (h : s.Consistent) : s.WellNested where
  counter := h.counter
  locked := h.taken
  exclusive := h.sound.apart
  nodup := h.sound.nodup
  guarded i c statement hmem := (h.fits i).founded.mem hmem
  counted i := (h.fits i).counted
  unlinked i c n rest hthread := by
    have hfits := h.fits i
    rw [hthread] at hfits
    have hnodup : (s.held i).Nodup := h.sound.nodup i
    rw [held, hthread, List.map_cons] at hnodup
    have hzero := countP_eq_zero hfits.founded.tail (List.nodup_cons.mp hnodup).1
    have hcounted := hfits.counted c n List.mem_cons_self
    simpa [Thread.linked, List.countP_cons, Guard.linksTo, hzero] using hcounted

end Runs

end Guards

end Coffee.Dbms
