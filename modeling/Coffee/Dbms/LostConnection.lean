import Coffee.Dbms.Connection

/-! # Lost connections

`Connection::execute` recovers a lost connection and throws, but it keeps the pending counters.
A `Journal` reads a database as the statements that wait for a commit and those that are permanent.
-/

namespace Coffee.Dbms

open Coffee.Library

/-- Statements are numbered as they succeed. -/
structure Ledger where
  pending : List Nat
  permanent : List Nat
  executed : Nat
  sinceCommit : List Nat
deriving DecidableEq, Repr

namespace Ledger

variable (ledger : Ledger)

def delayed : Ledger :=
  { ledger with
    pending := ledger.pending ++ [ledger.executed]
    executed := ledger.executed + 1
    sinceCommit := ledger.sinceCommit ++ [ledger.executed] }

def immediate : Ledger :=
  { ledger with
    permanent := ledger.permanent ++ [ledger.executed]
    executed := ledger.executed + 1
    sinceCommit := ledger.sinceCommit ++ [ledger.executed] }

def committed : Ledger :=
  { ledger with
    pending := []
    permanent := ledger.permanent ++ ledger.pending
    sinceCommit := [] }

def dropped : Ledger := { ledger with pending := [] }

def Numbered : Prop := ∀ number ∈ ledger.permanent ++ ledger.pending, number < ledger.executed

/-- What happens to a ledger while no statement succeeds. -/
inductive Settles : Ledger → Prop where
  | refl : Settles ledger
  | committed : Settles ledger.committed
  | dropped : Settles ledger.dropped

variable {ledger} {ledger' : Ledger}

theorem Settles.executed (h : Settles ledger ledger') : ledger'.executed = ledger.executed := by
  cases h <;> rfl

theorem Settles.permanent (h : Settles ledger ledger') :
    ledger.permanent ⊆ ledger'.permanent := by
  cases h with
  | refl => exact fun _ hnumber => hnumber
  | committed => exact List.subset_append_left _ _
  | dropped => exact fun _ hnumber => hnumber

theorem Settles.numbered (h : Settles ledger ledger') (hnumbered : ledger.Numbered) :
    ledger'.Numbered := by
  intro number hnumber
  rw [h.executed]
  apply hnumbered number
  cases h with
  | refl => exact hnumber
  | committed => simpa [Ledger.committed] using hnumber
  | dropped => exact List.mem_append_left _ (by simpa [Ledger.dropped] using hnumber)

/-- What happens to a ledger when a statement succeeds. -/
structure Writes (ledger written : Ledger) : Prop where
  executed : written.executed = ledger.executed + 1
  permanent : ledger.permanent ⊆ written.permanent
  numbered : ledger.Numbered → written.Numbered

theorem writes_delayed (ledger : Ledger) : Writes ledger ledger.delayed where
  executed := rfl
  permanent _ hnumber := hnumber
  numbered hnumbered number hnumber := by
    have hcases : number ∈ ledger.permanent ++ ledger.pending ∨ number = ledger.executed := by
      simpa [Ledger.delayed, or_assoc] using hnumber
    rcases hcases with hold | rfl
    · exact Nat.lt_succ_of_lt (hnumbered number hold)
    · exact Nat.lt_succ_self _

theorem writes_immediate (ledger : Ledger) : Writes ledger ledger.immediate where
  executed := rfl
  permanent := List.subset_append_left _ _
  numbered hnumbered number hnumber := by
    have hcases : number ∈ ledger.permanent ++ ledger.pending ∨ number = ledger.executed := by
      simp only [Ledger.immediate, List.mem_append, List.mem_singleton] at hnumber ⊢
      tauto
    rcases hcases with hold | rfl
    · exact Nat.lt_succ_of_lt (hnumbered number hold)
    · exact Nat.lt_succ_self _

end Ledger

/-- How the virtual functions of a connection act on the statements of its database. -/
structure Journal {σ : Type} (backend : Backend σ) where
  ledger : σ → Ledger
  recover : ∀ database, ledger (backend.recover database).2 = (ledger database).dropped
  do_beginTransaction : ∀ database,
    ledger (backend.do_beginTransaction database).2 = ledger database
  do_commit_ok : ∀ database, (backend.do_commit database).1 = .ok () →
    ledger (backend.do_commit database).2 = (ledger database).committed
  do_commit_error : ∀ database ex, (backend.do_commit database).1 = .error ex →
    ledger (backend.do_commit database).2 = ledger database
  do_rollback : ∀ database, ledger (backend.do_rollback database) = (ledger database).dropped
  write : ∀ database, ledger (backend.write database) = (ledger database).delayed ∨
    ledger (backend.write database) = (ledger database).immediate

namespace Journal

variable {σ : Type} {backend : Backend σ} (journal : Journal backend)

/-- What happens in a section. `world` is what happens to the database behind the connection, such
as the loss that the next statement reports. -/
inductive Operation where
  | execute (statement : Statement) (outcome : Except ConnectionException ResultCode)
  | commit
  | setMaxCommitPending (maxCommitPending : Int)
  | world (change : σ → σ) (keeps : ∀ database, journal.ledger (change database) =
      journal.ledger database)

/-- A statement that does not require a commit is a query. -/
def executing (backend : Backend σ) (statement : Statement) : Backend σ :=
  if statement.requiresCommit then backend else { backend with write := id }

variable {journal}

/-- The user of the connection goes on after an exception. -/
def step (connection : Connection σ) : journal.Operation → Connection σ
  | .execute statement outcome =>
    (connection.execute (executing backend statement) statement outcome).2
  | .commit => (connection.commit backend).2
  | .setMaxCommitPending maxCommitPending => connection.setMaxCommitPending maxCommitPending
  | .world change _ => { connection with database := change connection.database }

variable (journal) in
def statements (connection : Connection σ) : Ledger := journal.ledger connection.database

def LosesConnection (connection : Connection σ) (operation : journal.Operation) : Prop :=
  ∃ statement, operation = .execute statement (.ok .lostConnection) ∧
    (statement.requiresCommit && connection.m_rollbackPending) = false

/-- A statement that requires a commit is executed successfully. -/
def Writes (connection : Connection σ) (operation : journal.Operation) : Prop :=
  connection.m_rollbackPending = false ∧
    ∃ actionOnError, operation = .execute ⟨true, actionOnError⟩ (.ok .successful)

/-- Whatever follows a loss in a section that started behind `start` statements: no statement
executed behind it is committed, or all those executed since the last commit before it are. -/
def AllOrNothing (start : Nat) (connection : Connection σ) (operations : List journal.Operation) :
    Prop :=
  ∀ pre operation post, operations = pre ++ operation :: post →
    LosesConnection (Runs.run step connection pre) operation →
    let lost := journal.statements (Runs.run step connection pre)
    let behind := journal.statements ((Runs.run step connection operations).unlock backend)
    (∀ number ∈ behind.permanent, number < lost.executed) ∨
      ∀ number ∈ lost.sinceCommit, start ≤ number → number ∈ behind.permanent

/-- The connection is lost before statements of the section are permanent. -/
def LosesStatements (start : Nat) (connection : Connection σ) (operation : journal.Operation) :
    Prop :=
  LosesConnection connection operation ∧
    ∃ number ∈ (journal.statements connection).sinceCommit,
      start ≤ number ∧ number ∉ (journal.statements connection).permanent

variable {connection : Connection σ}

open Ledger (Settles)

theorem settles_of_eq {ledger ledger' : Ledger} (h : ledger' = ledger) : Settles ledger ledger' :=
  h ▸ .refl

theorem recover_settles (database : σ) :
    Settles (journal.ledger database) (journal.ledger (backend.recover database).2) := by
  rw [journal.recover]
  exact .dropped

theorem commit_settles (connection : Connection σ) :
    Settles (journal.statements connection) (journal.statements (connection.commit backend).2) := by
  unfold Connection.commit
  split
  · exact .refl
  · have hok := journal.do_commit_ok connection.database
    have herror := journal.do_commit_error connection.database
    cases hcommit : backend.do_commit connection.database with
    | mk result database =>
      rw [hcommit] at hok herror
      cases result with
      | ok _ =>
        have h : journal.ledger database = (journal.ledger connection.database).committed := hok rfl
        simp only [statements, h]
        exact .committed
      | error ex => exact settles_of_eq (herror ex rfl)

theorem unlock_settles (connection : Connection σ) :
    Settles (journal.statements connection) (journal.statements (connection.unlock backend)) := by
  unfold Connection.unlock
  dsimp only
  split
  · split
    · have h := journal.do_rollback connection.database
      simp only [statements, Connection.rollback, h]
      exact .dropped
    · split
      · have hcommit (connection : Connection σ) : Settles (journal.statements connection)
            (journal.statements (connection.commit backend).2) := commit_settles connection
        exact hcommit { connection with m_lockingCounter := 0 }
      · exact .refl
  · exact .refl

/-- What `execute` does unless a statement that requires a commit succeeds. -/
theorem execute_cases (backend : Backend σ) (connection : Connection σ) (statement : Statement)
    (outcome : Except ConnectionException ResultCode) :
    (connection.execute backend statement outcome).2 = connection ∨
      (connection.execute backend statement outcome).2 =
        { connection with database := (backend.recover connection.database).2 } ∨
      (connection.execute backend statement outcome).2 =
        { connection with m_rollbackPending := true } ∨
      (statement.requiresCommit = false ∧ (connection.execute backend statement outcome).2 =
        { connection with database := backend.write connection.database }) ∨
      (statement.requiresCommit = true ∧ connection.m_rollbackPending = false ∧
        outcome = .ok .successful) := by
  unfold Connection.execute
  split
  · exact Or.inl rfl
  · rename_i hguard
    split
    · exact Or.inl rfl
    · exact Or.inr (Or.inl rfl)
    · cases hrequires : statement.requiresCommit with
      | false => exact Or.inr (Or.inr (Or.inr (Or.inl ⟨rfl, rfl⟩)))
      | true =>
        rw [hrequires] at hguard
        exact Or.inr (Or.inr (Or.inr (Or.inr ⟨rfl, by simpa using hguard, rfl⟩)))
    · split
      · exact Or.inr (Or.inr (Or.inl rfl))
      · exact Or.inl rfl

theorem lock_settles (connection : Connection σ) :
    Settles (journal.statements connection) (journal.statements (connection.lock backend).2) := by
  have hrecovered : Settles (journal.statements connection) (journal.ledger
      (if backend.isAvailable connection.database then (true, connection.database)
        else backend.recover connection.database).2) := by
    split
    · exact .refl
    · exact recover_settles connection.database
  unfold Connection.lock
  dsimp only
  generalize (if backend.isAvailable connection.database then (true, connection.database)
    else backend.recover connection.database) = recovered at hrecovered ⊢
  have hbegin := journal.do_beginTransaction recovered.2
  split
  · exact hrecovered
  · split
    · cases hdo : backend.do_beginTransaction recovered.2 with
      | mk result database =>
        rw [hdo] at hbegin
        have hdatabase : journal.ledger database = journal.ledger recovered.2 := hbegin
        rw [← hdatabase] at hrecovered
        rcases result with _ | _ | _ <;> exact hrecovered
    · exact hrecovered

theorem step_settles {operation : journal.Operation} (h : ¬ Writes connection operation) :
    Settles (journal.statements connection) (journal.statements (step connection operation)) := by
  cases operation with
  | commit => exact commit_settles connection
  | setMaxCommitPending maxCommitPending => exact .refl
  | world change keeps => exact settles_of_eq (keeps connection.database)
  | execute statement outcome =>
    rw [step]
    rcases execute_cases (executing backend statement) connection statement outcome with
      hstep | hstep | hstep | ⟨hquery, hstep⟩ | ⟨hrequires, hpending, rfl⟩
    · rw [hstep]
      exact .refl
    · have hrecover : (executing backend statement).recover = backend.recover := by
        unfold executing
        split <;> rfl
      rw [hstep, hrecover]
      exact recover_settles connection.database
    · rw [hstep]
      exact .refl
    · rw [hstep, executing, hquery]
      exact .refl
    · obtain ⟨requiresCommit, actionOnError⟩ := statement
      obtain rfl : requiresCommit = true := hrequires
      exact absurd ⟨hpending, actionOnError, rfl⟩ h

theorem step_writes {operation : journal.Operation} (h : Writes connection operation) :
    ∃ written, Ledger.Writes (journal.statements connection) written ∧
      Settles written (journal.statements (step connection operation)) := by
  obtain ⟨hpending, actionOnError, rfl⟩ := h
  let written := { connection with
    database := backend.write connection.database
    m_commitPending := connection.m_commitPending + 1 }
  have hwrites : Ledger.Writes (journal.statements connection) (journal.statements written) := by
    change Ledger.Writes _ (journal.ledger (backend.write connection.database))
    rcases journal.write connection.database with hwrite | hwrite
    · rw [hwrite]
      exact Ledger.writes_delayed _
    · rw [hwrite]
      exact Ledger.writes_immediate _
  refine ⟨journal.statements written, hwrites, ?_⟩
  have hstep := Connection.execute_successful backend hpending actionOnError (rfl : written = _)
  rw [step, executing, if_pos rfl, hstep]
  split
  · exact commit_settles written
  · exact .refl

theorem step_permanent (connection : Connection σ) (operation : journal.Operation) :
    (journal.statements connection).permanent ⊆
      (journal.statements (step connection operation)).permanent := by
  by_cases h : Writes connection operation
  · obtain ⟨written, hwrites, hsettles⟩ := step_writes h
    exact List.Subset.trans hwrites.permanent hsettles.permanent
  · exact (step_settles h).permanent

theorem step_numbered (connection : Connection σ) (operation : journal.Operation)
    (hnumbered : (journal.statements connection).Numbered) :
    (journal.statements (step connection operation)).Numbered := by
  by_cases h : Writes connection operation
  · obtain ⟨written, hwrites, hsettles⟩ := step_writes h
    exact hsettles.numbered (hwrites.numbered hnumbered)
  · exact (step_settles h).numbered hnumbered

theorem run_permanent (connection : Connection σ) (operations : List journal.Operation) :
    (journal.statements connection).permanent ⊆
      (journal.statements (Runs.run step connection operations)).permanent := by
  induction operations generalizing connection with
  | nil => exact fun _ hnumber => hnumber
  | cons operation operations ih =>
    exact List.Subset.trans (step_permanent connection operation) (ih (step connection operation))

theorem run_executed {operations : List journal.Operation}
    (h : Runs.Meets step (fun connection operation => ¬ Writes connection operation) connection
      operations) :
    (journal.statements (Runs.run step connection operations)).executed =
      (journal.statements connection).executed := by
  have hkeeps : ∀ (later : Connection σ) (operation : journal.Operation),
      (journal.statements later).executed = (journal.statements connection).executed →
      ¬ Writes later operation →
      (journal.statements (step later operation)).executed =
        (journal.statements connection).executed := by
    intro later operation hexecuted hquiet
    exact (step_settles hquiet).executed.trans hexecuted
  exact h.invariant hkeeps rfl

/-- A section in which no statement that requires a commit succeeds behind a loss of statements is
all or nothing. -/
theorem allOrNothing_of_quiet (journal : Journal backend) (connection : Connection σ)
    (hnumbered : (journal.statements connection).Numbered) (operations : List journal.Operation)
    (hquiet : ∀ pre operation mid operation' post,
      operations = pre ++ operation :: (mid ++ operation' :: post) →
      LosesStatements (journal.statements connection).executed
        (Runs.run step (connection.lock backend).2 pre) operation →
      ¬ Writes (Runs.run step (connection.lock backend).2 (pre ++ operation :: mid)) operation') :
    AllOrNothing (journal.statements connection).executed (connection.lock backend).2
      operations := by
  rintro pre operation post rfl hloses
  have hlocked := (lock_settles connection).numbered hnumbered
  generalize (connection.lock backend).2 = locked at hquiet hloses hlocked ⊢
  have hsettles (connection : Connection σ) : Settles (journal.statements connection)
      (journal.statements (connection.unlock backend)) := unlock_settles connection
  have hunlock := hsettles (Runs.run step locked (pre ++ operation :: post))
  by_cases hlost : LosesStatements (journal.statements connection).executed
    (Runs.run step locked pre) operation
  · left
    have hbehind : Runs.Meets step (fun connection operation => ¬ Writes connection operation)
        (Runs.run step locked (pre ++ [operation])) post := by
      refine Runs.meets_iff.mpr ?_
      rintro mid operation' post rfl
      rw [← Runs.run_append, List.append_assoc]
      exact hquiet pre operation mid operation' post rfl hlost
    have hlossy : ¬ Writes (Runs.run step locked pre) operation := by
      rintro ⟨-, actionOnError, rfl⟩
      obtain ⟨statement, hexecute, -⟩ := hloses
      cases hexecute
    have hnumbers := hunlock.numbered
      (Runs.invariant (fun connection operation => step_numbered connection operation) hlocked _)
    have hexecuted := calc
      (journal.statements ((Runs.run step locked (pre ++ operation :: post)).unlock
          backend)).executed
        = (journal.statements (Runs.run step locked (pre ++ operation :: post))).executed :=
          hunlock.executed
      _ = (journal.statements (Runs.run step locked (pre ++ [operation]))).executed := by
          rw [List.append_cons, Runs.run_append]
          exact run_executed hbehind
      _ = (journal.statements (Runs.run step locked pre)).executed := by
          rw [Runs.run_concat]
          exact (step_settles hlossy).executed
    intro number hnumber
    rw [← hexecuted]
    exact hnumbers number (List.mem_append_left _ hnumber)
  · right
    intro number hsince hstart
    have hpermanent : number ∈ (journal.statements (Runs.run step locked pre)).permanent := by
      by_contra hnot
      exact hlost ⟨hloses, number, hsince, hstart, hnot⟩
    apply hunlock.permanent
    rw [Runs.run_append]
    exact run_permanent _ _ hpermanent

end Journal

/-- `MockConnection`. Its container and its operations hold the numbers of the statements that
put their records there, and `executed` and `sinceCommit` are for the specification. -/
structure Mock where
  m_isOpen : Bool
  m_avoidRecovery : Bool
  m_operations : List Nat
  m_container : List Nat
  executed : Nat
  sinceCommit : List Nat
deriving DecidableEq, Repr

namespace Mock

def manualBreak (database : Mock) : Mock := { database with m_isOpen := false }

def close (database : Mock) : Mock := { database with m_isOpen := false }

def openAgain (database : Mock) : Bool × Mock :=
  let database := { database with m_operations := [] }
  if database.m_avoidRecovery then (false, database)
  else (true, { database with m_isOpen := true })

def do_commit (database : Mock) : Except ConnectionException Unit × Mock :=
  if !database.m_isOpen then (.error .RuntimeException, database)
  else (.ok (), { database with
    m_container := database.m_container ++ database.m_operations
    m_operations := []
    sinceCommit := [] })

def addOperation (database : Mock) : Mock :=
  { database with
    m_operations := database.m_operations ++ [database.executed]
    executed := database.executed + 1
    sinceCommit := database.sinceCommit ++ [database.executed] }

def ledger (database : Mock) : Ledger :=
  ⟨database.m_operations, database.m_container, database.executed, database.sinceCommit⟩

end Mock

def mock : Backend Mock where
  isAvailable database := database.m_isOpen
  recover database := database.close.openAgain
  do_beginTransaction database := (.ok false, database)
  do_commit := Mock.do_commit
  do_rollback database := { database with m_operations := [] }
  write := Mock.addOperation

def Mock.journal : Journal mock where
  ledger := Mock.ledger
  recover database := by
    simp only [mock, openAgain]
    split <;> rfl
  do_beginTransaction _ := rfl
  do_commit_ok database h := by
    revert h
    simp only [mock, do_commit]
    split
    · exact fun h => nomatch h
    · exact fun _ => rfl
  do_commit_error database ex h := by
    revert h
    simp only [mock, do_commit]
    split
    · exact fun _ => rfl
    · exact fun h => nomatch h
  do_rollback _ := rfl
  write _ := Or.inl rfl

namespace Journal

def mockConnection : Connection Mock where
  m_commitPending := 0
  m_rollbackPending := false
  m_maxCommitPending := 0
  m_lockingCounter := 0
  m_mutex := false
  database := ⟨true, false, [], [], 0, []⟩

def breaks : Mock.journal.Operation := .world Mock.manualBreak fun _ => rfl

def writes : Mock.journal.Operation := .execute ⟨true, .Rollback⟩ (.ok .successful)

def loses : Mock.journal.Operation := .execute ⟨true, .Rollback⟩ (.ok .lostConnection)

/-- What is executed behind the loss is committed without what was lost. -/
theorem not_allOrNothing : ¬ ∀ operations : List Mock.journal.Operation,
    AllOrNothing 0 (mockConnection.lock mock).2 operations := by
  intro h
  have hloses : LosesConnection
      (Runs.run step (mockConnection.lock mock).2 [writes, breaks]) loses := ⟨_, rfl, rfl⟩
  rcases h [writes, breaks, loses, writes] [writes, breaks] loses [writes] rfl hloses with
    hnothing | hall
  · exact absurd (hnothing 1 (by decide)) (by decide)
  · exact absurd (hall 0 (by decide) (Nat.zero_le 0)) (by decide)

theorem allOrNothing_of_quiet_mock :
    AllOrNothing 0 (mockConnection.lock mock).2 [writes, breaks, loses] :=
  allOrNothing_of_quiet Mock.journal mockConnection (fun _ h => nomatch h) _ <| by
    intro pre operation mid operation' post hsplit
    rintro ⟨⟨statement, rfl, -⟩, -⟩
    rcases pre with _ | ⟨first, _ | ⟨second, pre⟩⟩
    · cases hsplit
    · cases hsplit
    · have hlength := congrArg List.length hsplit
      simp only [List.length_cons, List.length_nil, List.length_append] at hlength
      omega

end Journal

end Coffee.Dbms
