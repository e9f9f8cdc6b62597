import Coffee.Library.Runs

/-! # Database connections

`dbms::Connection` counts the statements that wait for a commit and remembers that a rollback is
due. The virtual functions of a connection are the fields of `Backend`, over whatever state the
database behind it has; `sqlite` is the one of `SqliteConnection`.
-/

namespace Coffee.Dbms

inductive ConnectionException where
  | RuntimeException | DatabaseException
deriving DecidableEq, Repr

inductive ActionOnError where
  | Rollback | Ignore
deriving DecidableEq, Repr

inductive ResultCode where
  | successful | notFound | failed | lostConnection
deriving DecidableEq, Repr

structure Statement where
  requiresCommit : Bool
  actionOnError : ActionOnError
deriving DecidableEq, Repr

/-- `recover` is `close` followed by `open`, and `write` is what a successful statement does. -/
structure Backend (σ : Type) where
  isAvailable : σ → Bool
  recover : σ → Bool × σ
  do_beginTransaction : σ → Except ConnectionException Bool × σ
  do_commit : σ → Except ConnectionException Unit × σ
  do_rollback : σ → σ
  write : σ → σ

structure Connection (σ : Type) where
  m_commitPending : Int
  m_rollbackPending : Bool
  m_maxCommitPending : Int
  m_lockingCounter : Int
  m_mutex : Bool
  database : σ
deriving DecidableEq, Repr

namespace Connection

variable {σ : Type} (backend : Backend σ) (connection : Connection σ)

def setMaxCommitPending (maxCommitPending : Int) : Connection σ :=
  { connection with m_maxCommitPending := maxCommitPending }

def reachMaxCommitPending : Bool :=
  0 < connection.m_maxCommitPending && connection.m_maxCommitPending ≤ connection.m_commitPending

def commit : Except ConnectionException Unit × Connection σ :=
  if !backend.isAvailable connection.database then (.error .RuntimeException, connection)
  else match backend.do_commit connection.database with
    | (.error ex, database) => (.error ex, { connection with database })
    | (.ok (), database) =>
      (.ok (), { connection with database, m_commitPending := 0, m_rollbackPending := false })

def rollback : Connection σ :=
  { connection with
    database := backend.do_rollback connection.database
    m_commitPending := 0
    m_rollbackPending := false }

/-- `outcome` is what preparing and executing the statement comes to: an exception that passes
through, or the result code of the database. -/
def execute (statement : Statement) (outcome : Except ConnectionException ResultCode) :
    Except ConnectionException ResultCode × Connection σ :=
  if statement.requiresCommit && connection.m_rollbackPending then
    (.error .RuntimeException, connection)
  else match outcome with
    | .error ex => (.error ex, connection)
    | .ok .lostConnection =>
      (.error .DatabaseException,
        { connection with database := (backend.recover connection.database).2 })
    | .ok .successful =>
      let connection := { connection with database := backend.write connection.database }
      if !statement.requiresCommit then (.ok .successful, connection)
      else
        let connection := { connection with m_commitPending := connection.m_commitPending + 1 }
        if connection.reachMaxCommitPending then
          match commit backend connection with
          | (.error ex, connection) => (.error ex, connection)
          | (.ok (), connection) => (.ok .successful, connection)
        else (.ok .successful, connection)
    | .ok result =>
      if statement.requiresCommit && statement.actionOnError = .Rollback then
        (.error .DatabaseException, { connection with m_rollbackPending := true })
      else (.ok result, connection)

def lock : Except ConnectionException Unit × Connection σ :=
  let recovered := if backend.isAvailable connection.database then (true, connection.database)
    else backend.recover connection.database
  let connection := { connection with database := recovered.2 }
  if !recovered.1 then (.error .RuntimeException, connection)
  else
    let isFirst := connection.m_lockingCounter = 0
    let connection :=
      { connection with m_mutex := true, m_lockingCounter := connection.m_lockingCounter + 1 }
    if isFirst then
      let connection := { connection with m_commitPending := 0, m_rollbackPending := false }
      match backend.do_beginTransaction connection.database with
      | (.error _, database) => (.error .RuntimeException, { connection with database })
      | (.ok true, database) => (.ok (), { connection with database, m_commitPending := 1 })
      | (.ok false, database) => (.ok (), { connection with database })
    else (.ok (), connection)

def unlock : Connection σ :=
  let connection := { connection with m_lockingCounter := connection.m_lockingCounter - 1 }
  let connection :=
    if connection.m_lockingCounter ≤ 0 then
      let connection := { connection with m_lockingCounter := 0 }
      if connection.m_rollbackPending then rollback backend connection
      else if 0 < connection.m_commitPending then (commit backend connection).2
      else connection
    else connection
  { connection with m_mutex := false }

variable {connection}

theorem execute_successful (h : connection.m_rollbackPending = false)
    (actionOnError : ActionOnError) {written : Connection σ}
    (hwritten : written = { connection with
      database := backend.write connection.database
      m_commitPending := connection.m_commitPending + 1 }) :
    (execute backend connection ⟨true, actionOnError⟩ (.ok .successful)).2 =
      if written.reachMaxCommitPending then (commit backend written).2 else written := by
  rw [execute, if_neg (by simp [h])]
  dsimp only
  rw [if_neg (by simp), ← hwritten]
  split
  · cases commit backend written with
    | mk result after => cases result <;> rfl
  · rfl

end Connection

/-- A database that makes a statement permanent at once outside a transaction. Statements are
numbered as they succeed; `executed` and `sinceCommit` record them for the specification. -/
structure Sqlite where
  transaction : Option (List Nat)
  permanent : List Nat
  executed : List Nat
  sinceCommit : List Nat
deriving DecidableEq, Repr

namespace Sqlite

def begin (database : Sqlite) : Except ConnectionException Bool × Sqlite :=
  match database.transaction with
  | some _ => (.error .DatabaseException, database)
  | none => (.ok true, { database with transaction := some [] })

def commit (database : Sqlite) : Except ConnectionException Unit × Sqlite :=
  match database.transaction with
  | none => (.error .DatabaseException, database)
  | some pending =>
    (.ok (), { database with
      transaction := none
      permanent := database.permanent ++ pending
      sinceCommit := [] })

/-- `do_rollback` catches the error of a ROLLBACK outside a transaction. -/
def rollback (database : Sqlite) : Sqlite :=
  match database.transaction with
  | none => database
  | some _ => { database with transaction := none }

def write (database : Sqlite) : Sqlite :=
  let number := database.executed.length
  let database := { database with
    executed := database.executed ++ [number]
    sinceCommit := database.sinceCommit ++ [number] }
  match database.transaction with
  | none => { database with permanent := database.permanent ++ [number] }
  | some pending => { database with transaction := some (pending ++ [number]) }

@[simp] theorem write_executed (database : Sqlite) :
    database.write.executed = database.executed ++ [database.executed.length] := by
  cases h : database.transaction <;> simp [write, h]

@[simp] theorem write_sinceCommit (database : Sqlite) :
    database.write.sinceCommit = database.sinceCommit ++ [database.executed.length] := by
  cases h : database.transaction <;> simp [write, h]

theorem write_inside {database : Sqlite} {pending : List Nat}
    (h : database.transaction = some pending) :
    database.write.transaction = some (pending ++ [database.executed.length]) ∧
      database.write.permanent = database.permanent := by
  simp [write, h]

theorem write_outside {database : Sqlite} (h : database.transaction = none) :
    database.write.transaction = none ∧
      database.write.permanent = database.permanent ++ [database.executed.length] := by
  simp [write, h]

end Sqlite

/-- `SqliteConnection`, with a database that opens again after it was closed. -/
def sqlite : Backend Sqlite where
  isAvailable _ := true
  recover database := (true, database.rollback)
  do_beginTransaction := Sqlite.begin
  do_commit := Sqlite.commit
  do_rollback := Sqlite.rollback
  write := Sqlite.write

end Coffee.Dbms
