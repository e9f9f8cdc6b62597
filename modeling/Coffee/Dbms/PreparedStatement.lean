import Coffee.Dbms.Connection
import Coffee.Library.Ownership

/-! # Prepared statements of SQLite

A `SqliteStatement` keeps the `sqlite3_stmt` of its last preparation, and several connections of one
database execute it. What the library answers is part of each call.
-/

namespace Coffee.Dbms

open Coffee.Library

namespace Sqlite3

/-- A number for each `sqlite3_stmt`, the connection and the handle it was prepared on. -/
structure Stmt where
  number : Nat
  connection : Nat
  handle : Nat
deriving DecidableEq, Repr

/-- A text without SQL is prepared as NULL. -/
inductive Prepare where
  | error | noSQL | statement (parameters columns : Nat)
deriving DecidableEq, Repr

/-- `lost` is one of the codes that `SqliteErrorCodeInterpreter` takes for a lost connection. -/
inductive Step where
  | row | done | lost | other
deriving DecidableEq, Repr

/-- `bind` and `encode` are whether the binders return from `do_prepare` and `do_encode`. -/
structure Answers where
  prepare : Prepare
  bind : Bool
  reset : Bool
  encode : Bool
  step : Step
  opens : Bool
  begins : Bool
  commits : Bool
deriving DecidableEq, Repr

/-- The statements that the library has handed out and taken back, each step with the connection
that executes it and its open handle, and each check of a preparation: whether the statement was
prepared on the open handle, and whether it is prepared now. -/
structure History where
  obtained : List Stmt
  finalized : List Stmt
  stepped : List (Option Stmt × Nat × Option Nat)
  checked : List (Bool × Bool)
deriving DecidableEq, Repr

def History.check (journal : History) (isOnHandle needs : Bool) : History :=
  { journal with checked := journal.checked ++ [(isOnHandle, needs)] }

def OnHandle (impl : Option Stmt) (connection : Nat) (handle : Option Nat) : Prop :=
  ∃ stmt ∈ impl, stmt.connection = connection ∧ handle = some stmt.handle

instance (connection : Nat) (handle : Option Nat) :
    (impl : Option Stmt) → Decidable (OnHandle impl connection handle)
  | none => .isFalse fun ⟨_, hmem, _⟩ => by simp at hmem
  | some stmt =>
    decidable_of_iff (stmt.connection = connection ∧ handle = some stmt.handle) (by simp [OnHandle])

end Sqlite3

open Sqlite3 (Stmt Answers OnHandle)

/-- A handle is named by the number of calls of `sqlite3_open` before it. -/
structure SqliteHandle where
  impl : Option Nat
  opened : Nat
deriving DecidableEq, Repr

namespace SqliteHandle

def close (handle : SqliteHandle) : SqliteHandle := { handle with impl := none }

def open' (handle : SqliteHandle) (answers : Answers) : Bool × SqliteHandle :=
  if answers.opens then (true, ⟨some handle.opened, handle.opened + 1⟩)
  else (false, ⟨none, handle.opened + 1⟩)

def backend (answers : Answers) : Backend SqliteHandle where
  isAvailable handle := handle.impl.isSome
  recover handle := handle.close.open' answers
  do_beginTransaction handle :=
    (if answers.begins then .ok true else .error .DatabaseException, handle)
  do_commit handle := (if answers.commits then .ok () else .error .DatabaseException, handle)
  do_rollback handle := handle
  write handle := handle

end SqliteHandle

structure SqliteStatement where
  base : Statement
  input_size : Nat
  output_size : Nat
  isASelect : Bool
  m_isPrepared : Bool
  owner : Option Nat
  impl : Option Stmt
  fetchIsDone : Bool
deriving DecidableEq, Repr

namespace SqliteStatement

open Sqlite3

/-- The statement behind its constructor. -/
def instantiate (base : Statement) (input_size output_size : Nat) (isASelect : Bool) :
    SqliteStatement :=
  ⟨base, input_size, output_size, isASelect, false, none, none, false⟩

variable (statement : SqliteStatement) (connection : Nat) (answers : Answers)

def isPrepared : Bool := statement.m_isPrepared && statement.owner == some connection

/-- `sqlite3_prepare_v2`, which sets the pointer to NULL in front of everything else. -/
def sqlite3_prepare (handle : Option Nat) (journal : History) : Bool × Option Stmt × History :=
  match handle, answers.prepare with
  | none, _ => (false, none, journal)
  | some _, .error => (false, none, journal)
  | some _, .noSQL => (true, none, journal)
  | some handle, .statement _ _ =>
    let stmt := ⟨journal.obtained.length, connection, handle⟩
    (true, some stmt, { journal with obtained := journal.obtained ++ [stmt] })

def parameterCount : Nat :=
  match answers.prepare with
  | .statement parameters _ => parameters
  | _ => 0

def columnCount : Nat :=
  match answers.prepare with
  | .statement _ columns => columns
  | _ => 0

def do_prepare (handle : Option Nat) (journal : History) :
    Except ConnectionException Unit × SqliteStatement × History :=
  let (rc, impl, journal) := sqlite3_prepare connection answers handle journal
  let statement := { statement with impl }
  if !rc then (.error .DatabaseException, statement, journal)
  else if parameterCount answers ≠ statement.input_size then
    (.error .RuntimeException, statement, journal)
  else if columnCount answers ≠ statement.output_size then
    (.error .RuntimeException, statement, journal)
  else (.ok (), statement, journal)

def prepare (handle : Option Nat) (journal : History) :
    Except ConnectionException Unit × SqliteStatement × History :=
  match statement.do_prepare connection answers handle journal with
  | (.error ex, statement, journal) => (.error ex, statement, journal)
  | (.ok (), statement, journal) =>
    if (0 < statement.input_size || 0 < statement.output_size) && !answers.bind then
      (.error .RuntimeException, statement, journal)
    else (.ok (), { statement with m_isPrepared := true }, journal)

/-- The code of `sqlite3_step`, which without a statement is a misuse. -/
def sqlite3_step : Step := if statement.impl.isSome then answers.step else .other

def do_execute (handle : Option Nat) (journal : History) :
    Except ConnectionException ResultCode × SqliteStatement × History :=
  if statement.impl.isSome && !answers.reset then (.error .DatabaseException, statement, journal)
  else
    let rc := statement.sqlite3_step answers
    let journal :=
      { journal with stepped := journal.stepped ++ [(statement.impl, connection, handle)] }
    if statement.isASelect then
      if rc = .done then (.ok .notFound, { statement with fetchIsDone := false }, journal)
      else (.ok .successful, { statement with fetchIsDone := true }, journal)
    else match rc with
      | .done => (.ok .successful, statement, journal)
      | .lost => (.ok .lostConnection, statement, journal)
      | _ => (.ok .failed, statement, journal)

def execute (handle : Option Nat) (journal : History) :
    Except ConnectionException ResultCode × SqliteStatement × History :=
  if 0 < statement.input_size && !answers.encode then
    (.error .RuntimeException, statement, journal)
  else statement.do_execute connection answers handle journal

def do_fetch (handle : Option Nat) (journal : History) : SqliteStatement × History :=
  if statement.fetchIsDone then ({ statement with fetchIsDone := false }, journal)
  else (statement,
    { journal with stepped := journal.stepped ++ [(statement.impl, connection, handle)] })

def close (journal : History) : SqliteStatement × History :=
  match statement.impl with
  | none => (statement, journal)
  | some stmt => ({ statement with impl := none },
      { journal with finalized := journal.finalized ++ [stmt] })

end SqliteStatement

/-- The connections of a database, its statements, and the library behind them. -/
structure SqliteDatabase where
  connections : Nat → Connection SqliteHandle
  statements : Nat → SqliteStatement
  journal : Sqlite3.History

namespace SqliteDatabase

open Sqlite3

/-- A statement is destroyed when the database forgets it and no guard uses it. -/
inductive Call where
  | lock (connection : Nat) (answers : Answers)
  | unlock (connection : Nat) (answers : Answers)
  | close (connection : Nat)
  | open' (connection : Nat) (answers : Answers)
  | execute (connection statement : Nat) (answers : Answers)
  | fetch (connection statement : Nat)
  | destroy (statement : Nat)
deriving DecidableEq, Repr

variable (database : SqliteDatabase)

def handle (connection : Nat) : Option Nat := (database.connections connection).database.impl

def setConnection (i : Nat) (connection : Connection SqliteHandle) : SqliteDatabase :=
  { database with connections := Function.update database.connections i connection }

def setStatement (i : Nat) (statement : SqliteStatement) (journal : History) : SqliteDatabase :=
  { database with statements := Function.update database.statements i statement, journal }

/-- The call of `Statement::prepare` in `Connection::execute`, where it is made. -/
def prepare (connection i : Nat) (answers : Answers) :
    Except ConnectionException Unit × SqliteStatement × History :=
  let statement := database.statements i
  let handle := database.handle connection
  let needs := !statement.isPrepared connection
  let journal := database.journal.check (OnHandle statement.impl connection handle) needs
  if needs then statement.prepare connection answers handle journal
  else (.ok (), statement, journal)

/-- What preparing and executing the statement comes to. -/
def run (connection i : Nat) (answers : Answers) :
    Except ConnectionException ResultCode × SqliteStatement × History :=
  match database.prepare connection i answers with
  | (.error ex, statement, journal) => (.error ex, statement, journal)
  | (.ok (), statement, journal) =>
    statement.execute connection answers (database.handle connection) journal

/-- `Connection::execute` throws in front of a rollback that is due. -/
def refuses (connection i : Nat) : Bool :=
  (database.statements i).base.requiresCommit && (database.connections connection).m_rollbackPending

def execute (connection i : Nat) (answers : Answers) : SqliteDatabase :=
  if database.refuses connection i then database
  else
    let (outcome, statement, journal) := database.run connection i answers
    (database.setStatement i statement journal).setConnection connection
      ((database.connections connection).execute (SqliteHandle.backend answers) statement.base
        outcome).2

def step : Call → SqliteDatabase
  | .lock i answers =>
    database.setConnection i ((database.connections i).lock (SqliteHandle.backend answers)).2
  | .unlock i answers =>
    database.setConnection i ((database.connections i).unlock (SqliteHandle.backend answers))
  | .close i => database.setConnection i
      { database.connections i with database := (database.connections i).database.close }
  | .open' i answers => database.setConnection i
      { database.connections i with
        database := ((database.connections i).database.open' answers).2 }
  | .execute connection i answers => database.execute connection i answers
  | .fetch connection i =>
    let (statement, journal) := (database.statements i).do_fetch connection
      (database.handle connection) database.journal
    database.setStatement i statement journal
  | .destroy i =>
    let statement := database.statements i
    database.setStatement i (.instantiate statement.base statement.input_size statement.output_size
      statement.isASelect) (statement.close database.journal).2

/-- The database behind its constructor. -/
def instantiate (connections : Nat → Connection SqliteHandle)
    (statements : Nat → Statement × Nat × Nat × Bool) : SqliteDatabase where
  connections := connections
  statements i := .instantiate (statements i).1 (statements i).2.1 (statements i).2.2.1
    (statements i).2.2.2
  journal := ⟨[], [], [], []⟩

def ownership : Ownership Nat Stmt where
  holds i := (database.statements i).impl
  acquired := database.journal.obtained
  released := database.journal.finalized

/-- A `sqlite3_stmt` is stepped only on the open handle that it was prepared on, a preparation is
made just where there is none on that handle, and every `sqlite3_stmt` is finalized once. -/
structure Matches : Prop where
  stepped : ∀ step ∈ database.journal.stepped, OnHandle step.1 step.2.1 step.2.2
  checked : ∀ check ∈ database.journal.checked, check.2 = !check.1
  finalized : database.ownership.Settled

end SqliteDatabase

namespace SqliteStatement

open Sqlite3

variable {statement : SqliteStatement} {connection : Nat} {answers : Answers}
  {handle : Option Nat} {journal : History}

/-- Nothing is prepared, and no binder notices it. -/
def IsVacuous (statement : SqliteStatement) (answers : Answers) : Prop :=
  answers.prepare = .noSQL ∧ statement.input_size = 0 ∧ statement.output_size = 0

theorem sqlite3_prepare_spec (connection : Nat) (answers : Answers) (handle : Option Nat)
    (journal : History) : ∃ rc impl,
      sqlite3_prepare connection answers handle journal =
        (rc, impl, { journal with obtained := journal.obtained ++ impl.toList }) ∧
      (∀ stmt ∈ impl, stmt.number = journal.obtained.length ∧ stmt.connection = connection ∧
        handle = some stmt.handle) ∧
      (rc = true ∧ impl = none ↔ handle.isSome ∧ answers.prepare = .noSQL) := by
  unfold sqlite3_prepare
  cases handle with
  | none => exact ⟨false, none, by simp⟩
  | some handle =>
    cases answers.prepare with
    | error => exact ⟨false, none, by simp⟩
    | noSQL => exact ⟨true, none, by simp⟩
    | statement parameters columns =>
      exact ⟨true, some ⟨journal.obtained.length, connection, handle⟩, by simp⟩

theorem prepare_spec (statement : SqliteStatement) (connection : Nat) (answers : Answers)
    (handle : Option Nat) (journal : History) : ∃ result m_isPrepared impl,
      statement.prepare connection answers handle journal =
        (result, { statement with impl, m_isPrepared },
          { journal with obtained := journal.obtained ++ impl.toList }) ∧
      (∀ stmt ∈ impl, stmt.number = journal.obtained.length ∧ stmt.connection = connection ∧
        handle = some stmt.handle) ∧
      (result = .ok () ∧ impl = none ↔ handle.isSome ∧ statement.IsVacuous answers) := by
  obtain ⟨rc, impl, hprepare, hfresh, hnull⟩ :=
    sqlite3_prepare_spec connection answers handle journal
  have herror : ∀ {result : Except ConnectionException Unit}, result ≠ .ok () →
      ¬ (handle.isSome ∧ statement.IsVacuous answers) →
      (result = .ok () ∧ impl = none ↔ handle.isSome ∧ statement.IsVacuous answers) :=
    fun hresult hnot => iff_of_false (fun h => hresult h.1) hnot
  unfold prepare do_prepare
  rw [hprepare]
  dsimp only
  cases rc with
  | false =>
    refine ⟨_, _, impl, rfl, hfresh, herror (by simp) fun h => ?_⟩
    exact Bool.false_ne_true (hnull.mpr ⟨h.1, h.2.1⟩).1
  | true =>
    rw [if_neg (by simp)]
    by_cases hparameters : parameterCount answers ≠ statement.input_size
    · rw [if_pos hparameters]
      refine ⟨_, _, impl, rfl, hfresh, herror (by simp) fun ⟨_, hnoSQL, hinput, _⟩ => ?_⟩
      exact hparameters (by rw [parameterCount, hnoSQL, hinput])
    rw [if_neg hparameters]
    by_cases hcolumns : columnCount answers ≠ statement.output_size
    · rw [if_pos hcolumns]
      refine ⟨_, _, impl, rfl, hfresh, herror (by simp) fun ⟨_, hnoSQL, _, houtput⟩ => ?_⟩
      exact hcolumns (by rw [columnCount, hnoSQL, houtput])
    rw [if_neg hcolumns]
    dsimp only
    by_cases hbind : ((0 < statement.input_size || 0 < statement.output_size) &&
        !answers.bind) = true
    · rw [if_pos hbind]
      refine ⟨_, _, impl, rfl, hfresh, herror (by simp) fun ⟨_, _, hinput, houtput⟩ => ?_⟩
      simp [hinput, houtput] at hbind
    rw [if_neg hbind]
    refine ⟨_, _, impl, rfl, hfresh, ?_⟩
    rw [not_not] at hparameters hcolumns
    constructor
    · rintro ⟨-, himpl⟩
      obtain ⟨hopen, hnoSQL⟩ := hnull.mp ⟨rfl, himpl⟩
      rw [parameterCount, hnoSQL] at hparameters
      rw [columnCount, hnoSQL] at hcolumns
      exact ⟨hopen, hnoSQL, hparameters.symm, hcolumns.symm⟩
    · rintro ⟨hopen, hnoSQL, -⟩
      exact ⟨rfl, (hnull.mpr ⟨hopen, hnoSQL⟩).2⟩

/-- A statement that is executed is stepped once, unless an exception comes first. -/
theorem execute_spec (statement : SqliteStatement) (connection : Nat) (answers : Answers)
    (handle : Option Nat) (journal : History) : ∃ result fetchIsDone steps,
      statement.execute connection answers handle journal =
        (result, { statement with fetchIsDone },
          { journal with stepped := journal.stepped ++ steps }) ∧
      (steps = [] ∨ steps = [(statement.impl, connection, handle)]) ∧
      (statement.impl = none → statement.input_size = 0 → steps ≠ []) := by
  unfold execute
  split
  · rename_i hencode
    refine ⟨.error .RuntimeException, statement.fetchIsDone, [], by simp, .inl rfl, ?_⟩
    intro _ hinput
    simp [hinput] at hencode
  · unfold do_execute
    split
    · rename_i hreset
      refine ⟨.error .DatabaseException, statement.fetchIsDone, [], by simp, .inl rfl, ?_⟩
      intro himpl
      simp [himpl] at hreset
    · dsimp only
      split
      · split
        · exact ⟨_, _, _, rfl, .inr rfl, fun _ _ => by simp⟩
        · exact ⟨_, _, _, rfl, .inr rfl, fun _ _ => by simp⟩
      · split <;> exact ⟨_, _, _, rfl, .inr rfl, fun _ _ => by simp⟩

end SqliteStatement

namespace SqliteDatabase

open Sqlite3 SqliteStatement

variable {database : SqliteDatabase}

structure Consistent (database : SqliteDatabase) : Prop where
  owner : ∀ i, (database.statements i).owner = none
  ownership : database.ownership.Consistent
  number : ∀ stmt ∈ database.journal.obtained, stmt.number < database.journal.obtained.length

/-- What an execution that is not refused does to the statements. -/
theorem run_spec (h : database.Consistent) (connection i : Nat) (answers : Answers) :
    ∃ impl steps, (database.run connection i answers).2.1.impl = impl ∧
      (database.run connection i answers).2.1.owner = none ∧
      (database.run connection i answers).2.2 =
        { obtained := database.journal.obtained ++ impl.toList
          finalized := database.journal.finalized
          stepped := database.journal.stepped ++ steps
          checked := database.journal.checked ++
            [(decide (OnHandle (database.statements i).impl connection
              (database.handle connection)), true)] } ∧
      (∀ stmt ∈ impl, stmt.number = database.journal.obtained.length) ∧
      ((∀ step ∈ steps, OnHandle step.1 step.2.1 step.2.2) ↔
        ¬ ((database.handle connection).isSome ∧
          (database.statements i).IsVacuous answers)) := by
  have hneeds : (database.statements i).isPrepared connection = false := by
    simp [isPrepared, h.owner i]
  have hcall : database.prepare connection i answers =
      (database.statements i).prepare connection answers (database.handle connection)
        (database.journal.check (OnHandle (database.statements i).impl connection
          (database.handle connection)) true) := by
    simp only [SqliteDatabase.prepare, hneeds, Bool.not_false, if_true]
  obtain ⟨result, m_isPrepared, impl, hprepare, hfresh, hnull⟩ :=
    prepare_spec (database.statements i) connection answers (database.handle connection)
      (database.journal.check (OnHandle (database.statements i).impl connection
        (database.handle connection)) true)
  unfold run
  rw [hcall, hprepare]
  cases result with
  | error ex =>
    refine ⟨impl, [], rfl, h.owner i, by simp [History.check], fun stmt hstmt => (hfresh stmt hstmt).1, ?_⟩
    rw [← hnull]
    simp
  | ok _ =>
    dsimp only
    obtain ⟨result, fetchIsDone, steps, hexecute, hsteps, hvacuous⟩ :=
      execute_spec { database.statements i with impl, m_isPrepared } connection answers
        (database.handle connection) _
    rw [hexecute]
    refine ⟨impl, steps, rfl, h.owner i, rfl, fun stmt hstmt => (hfresh stmt hstmt).1, ?_⟩
    rw [← hnull]
    cases impl with
    | none =>
      have hinput : (database.statements i).input_size = 0 := (hnull.mp ⟨rfl, rfl⟩).2.2.1
      have hsteps := hsteps.resolve_left (hvacuous rfl hinput)
      simp [hsteps, OnHandle]
    | some stmt =>
      have hstmt := hfresh stmt rfl
      rcases hsteps with rfl | rfl <;> simp [OnHandle, hstmt]

/-- The call in this state leads to what `Matches` asks for. -/
def Ready (database : SqliteDatabase) : Call → Prop
  | .execute connection i answers => database.refuses connection i = false →
      (database.statements i).impl = none ∧
        ¬ ((database.handle connection).isSome ∧ (database.statements i).IsVacuous answers)
  | .fetch connection i => (database.statements i).fetchIsDone = true ∨
      OnHandle (database.statements i).impl connection (database.handle connection)
  | _ => True

theorem ownership_setStatement (database : SqliteDatabase) (i : Nat) (statement : SqliteStatement)
    (journal : History) : (database.setStatement i statement journal).ownership =
      ⟨Function.update database.ownership.holds i statement.impl, journal.obtained,
        journal.finalized⟩ := by
  have hholds : (fun j => (Function.update database.statements i statement j).impl) =
      Function.update (fun j => (database.statements j).impl) i statement.impl := by
    funext j
    exact Function.apply_update (fun _ statement => SqliteStatement.impl statement) _ i statement j
  simp only [ownership, setStatement, hholds]

theorem consistent_setConnection {i : Nat} {connection : Connection SqliteHandle} :
    (database.setConnection i connection).Consistent ↔ database.Consistent :=
  ⟨fun h => ⟨h.owner, h.ownership, h.number⟩, fun h => ⟨h.owner, h.ownership, h.number⟩⟩

theorem matches_setConnection {i : Nat} {connection : Connection SqliteHandle} :
    (database.setConnection i connection).Matches ↔ database.Matches :=
  ⟨fun h => ⟨h.stepped, h.checked, h.finalized⟩, fun h => ⟨h.stepped, h.checked, h.finalized⟩⟩

theorem owner_setStatement (h : database.Consistent) {i : Nat} {statement : SqliteStatement}
    {journal : History} (howner : statement.owner = none) (j : Nat) :
    ((database.setStatement i statement journal).statements j).owner = none := by
  by_cases hj : j = i
  · subst hj
    simpa [setStatement] using howner
  · simpa [setStatement, hj] using h.owner j

theorem execute_spec (h : database.Consistent) (connection i : Nat) (answers : Answers) :
    (database.execute connection i answers).Consistent ∧
      ((database.execute connection i answers).Matches ↔
        database.Matches ∧ database.Ready (.execute connection i answers)) := by
  unfold SqliteDatabase.execute
  cases hrefuses : database.refuses connection i with
  | true => exact ⟨h, by simp [Ready, hrefuses]⟩
  | false =>
    rw [if_neg Bool.false_ne_true]
    obtain ⟨impl, steps, himpl, howner, hjournal, hnumber, hsteps⟩ :=
      run_spec h connection i answers
    generalize database.run connection i answers = result at himpl howner hjournal
    obtain ⟨outcome, statement, journal⟩ := result
    dsimp only at himpl howner hjournal ⊢
    rw [consistent_setConnection, matches_setConnection]
    have hownership : (database.setStatement i statement journal).ownership =
        database.ownership.put i impl := by
      rw [ownership_setStatement, himpl, hjournal]
      rfl
    have hfresh : ∀ stmt ∈ impl, stmt ∉ database.ownership.acquired := by
      intro stmt hstmt hmem
      exact absurd (h.number stmt hmem) (by rw [hnumber stmt hstmt]; exact Nat.lt_irrefl _)
    constructor
    · refine ⟨owner_setStatement h howner, hownership ▸ h.ownership.put hfresh, ?_⟩
      intro stmt hstmt
      change stmt ∈ journal.obtained at hstmt
      change stmt.number < journal.obtained.length
      rw [hjournal] at hstmt ⊢
      rw [List.length_append]
      rcases List.mem_append.mp hstmt with hstmt | hstmt
      · exact Nat.lt_add_right _ (h.number stmt hstmt)
      · rw [Option.mem_toList] at hstmt
        rw [hnumber stmt hstmt, Option.mem_def.mp hstmt]
        exact Nat.lt_succ_self _
    · have hsettled := Ownership.settled_put_iff (i := i) h.ownership hfresh
      rw [← hownership] at hsettled
      have hstepped : (∀ step ∈ journal.stepped, OnHandle step.1 step.2.1 step.2.2) ↔
          (∀ step ∈ database.journal.stepped, OnHandle step.1 step.2.1 step.2.2) ∧
            ∀ step ∈ steps, OnHandle step.1 step.2.1 step.2.2 := by
        rw [hjournal, List.forall_mem_append]
      have hchecked : (∀ check ∈ journal.checked, check.2 = !check.1) ↔
          (∀ check ∈ database.journal.checked, check.2 = !check.1) ∧
            ¬ OnHandle (database.statements i).impl connection (database.handle connection) := by
        rw [hjournal, List.forall_mem_append, List.forall_mem_singleton]
        simp
      constructor
      · rintro ⟨hall, hchecks, hfinalized⟩
        obtain ⟨hbefore, hnone⟩ := hsettled.mp hfinalized
        obtain ⟨hearlier, hnew⟩ := hstepped.mp hall
        exact ⟨⟨hearlier, (hchecked.mp hchecks).1, hbefore⟩, fun _ => ⟨hnone, hsteps.mp hnew⟩⟩
      · rintro ⟨hbefore, hready⟩
        obtain ⟨hnone, hvacuous⟩ := hready hrefuses
        have hnotOn : ¬ OnHandle (database.statements i).impl connection
            (database.handle connection) := by simp [hnone, OnHandle]
        exact ⟨hstepped.mpr ⟨hbefore.stepped, hsteps.mpr hvacuous⟩,
          hchecked.mpr ⟨hbefore.checked, hnotOn⟩, hsettled.mpr ⟨hbefore.finalized, hnone⟩⟩

/-- A fetch without a row of the execution in hand steps the statement. -/
theorem fetch_spec (h : database.Consistent) (connection i : Nat) :
    (database.step (.fetch connection i)).Consistent ∧
      ((database.step (.fetch connection i)).Matches ↔
        database.Matches ∧ database.Ready (.fetch connection i)) := by
  have hsame : ∀ statement journal, statement.impl = (database.statements i).impl →
      journal.obtained = database.journal.obtained →
      journal.finalized = database.journal.finalized →
      (database.setStatement i statement journal).ownership = database.ownership := by
    intro statement journal himpl hobtained hfinalized
    have hholds : Function.update database.ownership.holds i (database.statements i).impl =
        database.ownership.holds := Function.update_eq_self i database.ownership.holds
    rw [ownership_setStatement, himpl, hobtained, hfinalized, hholds]
    rfl
  unfold step do_fetch
  cases hfetch : (database.statements i).fetchIsDone with
  | true =>
    have hownership := hsame { database.statements i with fetchIsDone := false } database.journal
      rfl rfl rfl
    simp only [Ready, hfetch, true_or, and_true, if_true]
    refine ⟨⟨owner_setStatement h (h.owner i), hownership ▸ h.ownership, h.number⟩, ?_⟩
    exact ⟨fun hm => ⟨hm.stepped, hm.checked, hownership ▸ hm.finalized⟩,
      fun hm => ⟨hm.stepped, hm.checked, hownership ▸ hm.finalized⟩⟩
  | false =>
    have hownership := hsame (database.statements i)
      { database.journal with stepped := database.journal.stepped ++
        [((database.statements i).impl, connection, database.handle connection)] } rfl rfl rfl
    simp only [Ready, hfetch, Bool.false_eq_true, false_or, if_false]
    refine ⟨⟨owner_setStatement h (h.owner i), hownership ▸ h.ownership, h.number⟩, ?_⟩
    constructor
    · rintro ⟨hstepped, hchecked, hfinalized⟩
      obtain ⟨hearlier, hnew⟩ := List.forall_mem_append.mp hstepped
      refine ⟨⟨hearlier, hchecked, hownership ▸ hfinalized⟩, ?_⟩
      exact hnew _ (List.mem_singleton_self _)
    · rintro ⟨hbefore, hready⟩
      refine ⟨List.forall_mem_append.mpr ⟨hbefore.stepped, ?_⟩, hbefore.checked,
        hownership ▸ hbefore.finalized⟩
      rwa [List.forall_mem_singleton]

theorem destroy_spec (h : database.Consistent) (i : Nat) :
    (database.step (.destroy i)).Consistent ∧
      ((database.step (.destroy i)).Matches ↔ database.Matches) := by
  have hclose : ((database.statements i).close database.journal).2 =
      { database.journal with finalized :=
        database.journal.finalized ++ (database.statements i).impl.toList } := by
    unfold close
    cases (database.statements i).impl <;> simp
  have hownership : (database.step (.destroy i)).ownership = database.ownership.release i := by
    rw [step, ownership_setStatement, hclose]
    rfl
  have hsettled : (database.step (.destroy i)).ownership.Settled ↔ database.ownership.Settled := by
    rw [hownership]
    exact Ownership.settled_release_iff h.ownership
  have hjournal : (database.step (.destroy i)).journal =
      ((database.statements i).close database.journal).2 := rfl
  rw [hclose] at hjournal
  constructor
  · refine ⟨owner_setStatement h rfl, hownership ▸ h.ownership.release, ?_⟩
    rw [hjournal]
    exact h.number
  · constructor
    · rintro ⟨hstepped, hchecked, hfinalized⟩
      rw [hjournal] at hstepped hchecked
      exact ⟨hstepped, hchecked, hsettled.mp hfinalized⟩
    · intro hm
      refine ⟨?_, ?_, hsettled.mpr hm.finalized⟩ <;> rw [hjournal]
      · exact hm.stepped
      · exact hm.checked

theorem step_spec (h : database.Consistent) (call : Call) :
    (database.step call).Consistent ∧
      ((database.step call).Matches ↔ database.Matches ∧ database.Ready call) := by
  cases call with
  | execute connection i answers => exact execute_spec h connection i answers
  | fetch connection i => exact fetch_spec h connection i
  | destroy i => simpa [Ready] using destroy_spec h i
  | lock | unlock | close | open' =>
    exact ⟨consistent_setConnection.mpr h, by simp [step, Ready, matches_setConnection]⟩

theorem consistent_instantiate (connections : Nat → Connection SqliteHandle)
    (statements : Nat → Statement × Nat × Nat × Bool) :
    (instantiate connections statements).Consistent :=
  ⟨fun _ => rfl, Ownership.consistent_nil, by simp [instantiate]⟩

theorem matches_instantiate (connections : Nat → Connection SqliteHandle)
    (statements : Nat → Statement × Nat × Nat × Bool) :
    (instantiate connections statements).Matches := by
  constructor <;> simp [instantiate, ownership, Ownership.Settled]

end SqliteDatabase

end Coffee.Dbms
