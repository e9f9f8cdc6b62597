import Coffee.Dbms.Connection

/-! # Locks and guards

A `GuardConnection` locks its connection when it is constructed and unlocks it when it is destroyed.
The destructor of a guard whose constructor throws does not run. Any number of guards compete for
one connection here, and each of them stops between the check of the connection and the mutex.
-/

namespace Coffee.Dbms

open Coffee.Library

namespace Connection

variable {σ : Type} (backend : Backend σ) (connection : Connection σ)

/-- The part of `lock` in front of the mutex. -/
def makeAvailable : Bool × Connection σ :=
  let recovered := if backend.isAvailable connection.database then (true, connection.database)
    else backend.recover connection.database
  (recovered.1, { connection with database := recovered.2 })

/-- The part of `lock` behind the mutex. -/
def acquire : Except ConnectionException Unit × Connection σ :=
  let isFirst := connection.m_lockingCounter = 0
  let connection :=
    { connection with m_mutex := true, m_lockingCounter := connection.m_lockingCounter + 1 }
  if isFirst then
    let connection := { connection with m_commitPending := 0, m_rollbackPending := false }
    match backend.do_beginTransaction connection.database with
    | (.error _, database) => (.error .RuntimeException, { connection with database })
    | (.ok true, database) => (.ok (), { connection with database, m_commitPending := 1 })
    | (.ok false, database) => (.ok (), { connection with database })
  else (.ok (), connection)

theorem lock_eq : connection.lock backend =
    if (connection.makeAvailable backend).1 then (connection.makeAvailable backend).2.acquire backend
    else (.error .RuntimeException, (connection.makeAvailable backend).2) := by
  unfold lock makeAvailable
  dsimp only
  generalize (if backend.isAvailable connection.database then (true, connection.database)
    else backend.recover connection.database) = recovered
  rcases recovered with ⟨_ | _, database⟩
  · rfl
  · rfl

def Begins : Prop :=
  connection.m_lockingCounter = 0 →
    ∃ began, (backend.do_beginTransaction connection.database).1 = .ok began

/-- A lock that throws gives the mutex back and leaves the counter as it was. -/
def LockSafe : Prop :=
  ∀ ex, (connection.lock backend).1 = .error ex →
    (connection.lock backend).2.m_mutex = false ∧
      (connection.lock backend).2.m_lockingCounter = connection.m_lockingCounter

variable {connection}

theorem acquire_cases (backend : Backend σ) (connection : Connection σ) :
    (connection.acquire backend).2.m_mutex = true ∧
      (connection.acquire backend).2.m_lockingCounter = connection.m_lockingCounter + 1 ∧
      ((connection.acquire backend).1 = .ok () ↔ connection.Begins backend) := by
  unfold acquire Begins
  dsimp only
  split
  · rename_i hfirst
    cases hbegin : backend.do_beginTransaction connection.database with
    | mk result database =>
      rcases result with ex | _ | _
      · exact ⟨rfl, rfl, by simp [hfirst]⟩
      · exact ⟨rfl, rfl, by simp⟩
      · exact ⟨rfl, rfl, by simp⟩
  · rename_i hfirst
    exact ⟨rfl, rfl, by simp [hfirst]⟩

theorem lockSafe_iff (hfree : connection.m_mutex = false) :
    connection.LockSafe backend ↔
      ((connection.makeAvailable backend).1 = true →
        (connection.makeAvailable backend).2.Begins backend) := by
  rw [LockSafe, lock_eq]
  cases havailable : (connection.makeAvailable backend).1 with
  | false =>
    refine iff_of_true (fun ex _ => ⟨hfree, rfl⟩) fun h => by cases h
  | true =>
    obtain ⟨hmutex, -, hbegins⟩ :=
      acquire_cases backend (connection.makeAvailable backend).2
    rw [if_pos rfl]
    constructor
    · intro hsafe _
      apply hbegins.mp
      cases hresult : ((connection.makeAvailable backend).2.acquire backend).1 with
      | ok _ => rfl
      | error ex =>
        have hleak := (hsafe ex hresult).1
        rw [hmutex] at hleak
        cases hleak
    · intro hbegin ex herror
      rw [hbegins.mpr (hbegin rfl)] at herror
      cases herror

end Connection

/-- What the holder of a guard may do with the connection. -/
inductive Use where
  | execute (statement : Statement) (outcome : Except ConnectionException ResultCode)
  | commit
  | setMaxCommitPending (maxCommitPending : Int)
deriving Repr

def Use.apply {σ : Type} (backend : Backend σ) (connection : Connection σ) : Use → Connection σ
  | .execute statement outcome => (connection.execute backend statement outcome).2
  | .commit => (connection.commit backend).2
  | .setMaxCommitPending maxCommitPending => connection.setMaxCommitPending maxCommitPending

theorem Connection.commit_keeps {σ : Type} (backend : Backend σ) (connection : Connection σ) :
    (connection.commit backend).2.m_mutex = connection.m_mutex ∧
      (connection.commit backend).2.m_lockingCounter = connection.m_lockingCounter := by
  unfold commit
  split
  · exact ⟨rfl, rfl⟩
  · split <;> exact ⟨rfl, rfl⟩

theorem Use.apply_keeps {σ : Type} (backend : Backend σ) (connection : Connection σ) (use : Use) :
    (use.apply backend connection).m_mutex = connection.m_mutex ∧
      (use.apply backend connection).m_lockingCounter = connection.m_lockingCounter := by
  cases use with
  | commit => exact connection.commit_keeps backend
  | setMaxCommitPending maxCommitPending => exact ⟨rfl, rfl⟩
  | execute statement outcome =>
    rw [apply]
    unfold Connection.execute
    split
    · exact ⟨rfl, rfl⟩
    · split
      · exact ⟨rfl, rfl⟩
      · exact ⟨rfl, rfl⟩
      · dsimp only
        split
        · exact ⟨rfl, rfl⟩
        · split
          · have hkeeps := Connection.commit_keeps backend { connection with
              database := backend.write connection.database
              m_commitPending := connection.m_commitPending + 1 }
            split <;> rename_i hcommit <;> rw [hcommit] at hkeeps <;> exact hkeeps
          · exact ⟨rfl, rfl⟩
      · split <;> exact ⟨rfl, rfl⟩

theorem Connection.unlock_free {σ : Type} (backend : Backend σ) {connection : Connection σ}
    (h : connection.m_lockingCounter = 1) :
    (connection.unlock backend).m_mutex = false ∧
      (connection.unlock backend).m_lockingCounter = 0 := by
  refine ⟨rfl, ?_⟩
  rw [unlock, if_pos (by simp [h])]
  dsimp only
  split
  · rfl
  · split
    · exact (Connection.commit_keeps backend { connection with m_lockingCounter := 0 }).2
    · rfl

/-- `waiting` are the guards whose constructor waits for the mutex, and `guards` those that are
constructed and not yet destroyed. -/
structure System (σ : Type) where
  connection : Connection σ
  waiting : List Nat
  guards : List Nat

namespace System

variable {σ : Type} (backend : Backend σ)

inductive Action (σ : Type) where
  | construct (guard : Nat)
  | acquire (guard : Nat)
  | use (guard : Nat) (use : Use)
  | destroy (guard : Nat)
  | world (change : σ → σ)

def idle (database : σ) (maxCommitPending : Int) : System σ :=
  ⟨⟨0, false, maxCommitPending, 0, false, database⟩, [], []⟩

/-- A guard of the waiting ones takes the mutex only while nobody holds it. -/
def Acquires (system : System σ) (guard : Nat) : Prop :=
  guard ∈ system.waiting ∧ system.connection.m_mutex = false

instance (system : System σ) (guard : Nat) : Decidable (system.Acquires guard) :=
  inferInstanceAs (Decidable (_ ∧ _))

/-- An action that is not possible changes nothing. -/
def step (system : System σ) : Action σ → System σ
  | .construct guard =>
    let (available, connection) := system.connection.makeAvailable backend
    { system with
      connection
      waiting := if available then guard :: system.waiting else system.waiting }
  | .acquire guard =>
    if system.Acquires guard then
      { connection := (system.connection.acquire backend).2
        waiting := system.waiting.erase guard
        guards := match (system.connection.acquire backend).1 with
          | .ok () => guard :: system.guards
          | .error _ => system.guards }
    else system
  | .use guard use =>
    if guard ∈ system.guards then { system with connection := use.apply backend system.connection }
    else system
  | .destroy guard =>
    if guard ∈ system.guards then
      { system with
        connection := system.connection.unlock backend
        guards := system.guards.erase guard }
    else system
  | .world change =>
    { system with connection :=
      { system.connection with database := change system.connection.database } }

def Balanced (system : System σ) : Prop :=
  (system.connection.m_mutex = true ↔ 0 < system.connection.m_lockingCounter) ∧
    (0 < system.connection.m_lockingCounter ↔ system.guards ≠ [])

def Returns (system : System σ) (action : Action σ) : Prop :=
  ∀ guard, action = .acquire guard → system.Acquires guard → system.connection.Begins backend

inductive Consistent (system : System σ) : Prop where
  | free (hmutex : system.connection.m_mutex = false)
    (hcounter : system.connection.m_lockingCounter = 0) (hguards : system.guards = [])
  | held (guard : Nat) (hmutex : system.connection.m_mutex = true)
    (hcounter : system.connection.m_lockingCounter = 1) (hguards : system.guards = [guard])

variable {system : System σ}

theorem Consistent.balanced (h : system.Consistent) : system.Balanced := by
  cases h with
  | free hmutex hcounter hguards => simp [Balanced, hmutex, hcounter, hguards]
  | held guard hmutex hcounter hguards => simp [Balanced, hmutex, hcounter, hguards]

theorem Consistent.replace (h : system.Consistent) {other : System σ}
    (hmutex : other.connection.m_mutex = system.connection.m_mutex)
    (hcounter : other.connection.m_lockingCounter = system.connection.m_lockingCounter)
    (hguards : other.guards = system.guards) : other.Consistent := by
  cases h with
  | free hfree hzero hnone =>
    exact .free (hmutex.trans hfree) (hcounter.trans hzero) (hguards.trans hnone)
  | held guard hheld hone hguard =>
    exact .held guard (hmutex.trans hheld) (hcounter.trans hone) (hguards.trans hguard)

theorem Consistent.step (h : system.Consistent) {action : Action σ}
    (hreturns : system.Returns backend action) : (system.step backend action).Consistent := by
  cases action with
  | construct guard => exact h.replace rfl rfl rfl
  | world change => exact h.replace rfl rfl rfl
  | use guard use =>
    rw [System.step]
    split
    · obtain ⟨hmutex, hcounter⟩ := use.apply_keeps backend system.connection
      exact h.replace hmutex hcounter rfl
    · exact h
  | destroy guard =>
    rw [System.step]
    split
    · rename_i hguard
      cases h with
      | free hmutex hcounter hguards =>
        rw [hguards] at hguard
        cases hguard
      | held other hmutex hcounter hguards =>
        obtain ⟨hfree, hzero⟩ := Connection.unlock_free backend hcounter
        rw [hguards, List.mem_singleton] at hguard
        refine .free hfree hzero ?_
        rw [hguards, hguard, List.erase_cons_head]
    · exact h
  | acquire guard =>
    rw [System.step]
    split
    · rename_i hacquires
      obtain ⟨hmutex, hcounter, hbegins⟩ := Connection.acquire_cases backend system.connection
      cases h with
      | held other hheld _ _ =>
        rw [hacquires.2] at hheld
        cases hheld
      | free _ hzero hguards =>
        refine .held guard hmutex (by rw [hcounter, hzero]; rfl) ?_
        rw [hbegins.mpr (hreturns guard rfl hacquires), hguards]
    · exact h

/-- A guard whose transaction does not begin leaves the mutex behind. -/
theorem Consistent.unbalanced (h : system.Consistent) {action : Action σ}
    (hthrows : ¬ system.Returns backend action) : ¬ (system.step backend action).Balanced := by
  simp only [Returns, not_forall] at hthrows
  obtain ⟨guard, rfl, hacquires, hbegins⟩ := hthrows
  obtain ⟨-, hcounter, hresult⟩ := Connection.acquire_cases backend system.connection
  cases h with
  | held other hheld _ _ =>
    rw [hacquires.2] at hheld
    cases hheld
  | free hmutex hzero hguards =>
    rw [System.step, if_pos hacquires]
    rintro ⟨-, hbalanced⟩
    cases hthrown : (system.connection.acquire backend).1 with
    | ok _ => exact hbegins (hresult.mp hthrown)
    | error ex =>
      rw [hthrown, hcounter, hzero, hguards] at hbalanced
      exact hbalanced.mp Int.one_pos rfl

/-- A lock is exception safe unless BEGIN throws, and along a run the mutex, the counter and the
guards agree exactly when no BEGIN throws. -/
theorem lock_safe_iff_begins (backend : Backend σ) :
    (∀ connection : Connection σ, connection.m_mutex = false →
      (connection.LockSafe backend ↔ ((connection.makeAvailable backend).1 = true →
        (connection.makeAvailable backend).2.Begins backend))) ∧
      ∀ database maxCommitPending (actions : List (Action σ)),
        (∀ performed, performed <+: actions →
          (Runs.run (step backend) (idle database maxCommitPending) performed).Balanced) ↔
        Runs.Meets (step backend) (Returns backend) (idle database maxCommitPending) actions := by
  refine ⟨fun connection hfree => Connection.lockSafe_iff backend hfree, ?_⟩
  intro database maxCommitPending actions
  have hidle : (idle database maxCommitPending).Consistent := .free rfl rfl rfl
  have hkeeps : ∀ (system : System σ) (action : Action σ), system.Consistent →
      system.Returns backend action → (system.step backend action).Consistent :=
    fun _ _ h hreturns => h.step backend hreturns
  have hbreaks : ∀ (system : System σ) (action : Action σ), system.Consistent →
      ¬ system.Returns backend action → ¬ (system.step backend action).Balanced :=
    fun _ _ h hthrows => h.unbalanced backend hthrows
  exact Runs.meets_iff_forall_prefix (fun _ => Consistent.balanced) hkeeps hbreaks hidle

def Dead (system : System σ) : Prop := system.connection.m_mutex = true ∧ system.guards = []

theorem Dead.step (h : system.Dead) (action : Action σ) : (system.step backend action).Dead := by
  obtain ⟨hmutex, hguards⟩ := h
  cases action with
  | construct guard => exact ⟨hmutex, hguards⟩
  | world change => exact ⟨hmutex, hguards⟩
  | use guard use =>
    rw [System.step, if_neg (by simp [hguards])]
    exact ⟨hmutex, hguards⟩
  | destroy guard =>
    rw [System.step, if_neg (by simp [hguards])]
    exact ⟨hmutex, hguards⟩
  | acquire guard =>
    rw [System.step, if_neg (by simp [Acquires, hmutex])]
    exact ⟨hmutex, hguards⟩

theorem dead_run (h : system.connection.m_mutex = true) (hguards : system.guards = [])
    (actions : List (Action σ)) : (Runs.run (step backend) system actions).Dead := by
  have hstep : ∀ (system : System σ) (action : Action σ), system.Dead →
      (system.step backend action).Dead := fun _ action hdead => hdead.step backend action
  exact Runs.invariant hstep ⟨h, hguards⟩ actions

/-- A transaction that is still open makes BEGIN throw. -/
theorem not_lock_safe :
    (¬ ∀ connection : Connection Sqlite, connection.m_mutex = false →
      connection.LockSafe sqlite) ∧
      ¬ ∀ (database : Sqlite) (actions : List (Action Sqlite)),
        (Runs.run (step sqlite) (idle database 0) actions).Balanced := by
  constructor
  · intro h
    have hsafe := h ⟨0, false, 0, 0, false, ⟨some [0], [], [0], [0]⟩⟩ rfl .RuntimeException rfl
    exact absurd hsafe.1 (by decide)
  · intro h
    have hbalanced := h ⟨some [0], [], [0], [0]⟩ [.construct 0, .acquire 0]
    exact absurd (hbalanced.2.mp (by decide)) (by decide)

theorem lock_safe_iff_begins_sqlite :
    (⟨0, false, 0, 0, false, ⟨none, [], [], []⟩⟩ : Connection Sqlite).LockSafe sqlite :=
  ((lock_safe_iff_begins sqlite).1 _ rfl).mpr fun _ _ => ⟨true, rfl⟩

end System

end Coffee.Dbms
