import Coffee.Basis.Text
import Coffee.Dbms.PreparedStatement

/-! # Results of SQLite

`SqliteStatement` turns the codes of `sqlite3_step` into those of a `ResultCode`, and hands the first
row over with the first fetch. Whether it is a query it takes from its text.
-/

namespace Coffee.Dbms.SqliteResult

open Coffee.Basis Coffee.Library

def SQLITE_OK : Int := 0
def SQLITE_CORRUPT : Int := 11
def SQLITE_NOTFOUND : Int := 12
def SQLITE_NOTADB : Int := 26
def SQLITE_ROW : Int := 100
def SQLITE_DONE : Int := 101

namespace SqliteErrorCodeInterpreter

def notFound (errorCode : Int) : Bool := errorCode == SQLITE_NOTFOUND

def successful (errorCode : Int) : Bool := errorCode == SQLITE_OK

def lostConnection (errorCode : Int) : Bool :=
  errorCode == SQLITE_NOTADB || errorCode == SQLITE_CORRUPT

end SqliteErrorCodeInterpreter

open SqliteErrorCodeInterpreter
open Sqlite3 (Answers)

/-- What a `ResultCode` with this number answers. -/
def interpret (numericCode : Int) : ResultCode :=
  if lostConnection numericCode then .lostConnection
  else if successful numericCode then .successful
  else if notFound numericCode then .notFound
  else .failed

/-- The result of `sqlite3_step`, which never is `SQLITE_OK`. -/
inductive Result where
  | row
  | done
  | error (code : Int) (h : code ≠ SQLITE_OK ∧ code ≠ SQLITE_ROW ∧ code ≠ SQLITE_DONE)
deriving DecidableEq, Repr

def Result.code : Result → Int
  | .row => SQLITE_ROW
  | .done => SQLITE_DONE
  | .error code _ => code

theorem Result.code_eq_done {result : Result} : result.code = SQLITE_DONE ↔ result = .done := by
  cases result with
  | row => decide
  | done => decide
  | error code h => simp [Result.code, h.2.2]

theorem Result.code_eq_row {result : Result} : result.code = SQLITE_ROW ↔ result = .row := by
  cases result with
  | row => decide
  | done => decide
  | error code h => simp [Result.code, h.2.1]

/-- `answered` is the last result of `sqlite3_step`, which the statement does not keep: there is a
row to read just when it is `row`. -/
structure SqliteStatement where
  expression : Bytes
  fetchIsDone : Bool
  answered : Option Result
deriving DecidableEq, Repr

namespace SqliteStatement

/-- The statement behind its constructor. -/
def instantiate (expression : Bytes) : SqliteStatement := ⟨expression, false, none⟩

variable (statement : SqliteStatement)

def isASelect : Bool := (findText (statement.expression.map toLower) (text "select") 0).isSome

/-- `reset` is what `sqlite3_reset` returns, and `result` what `sqlite3_step` does behind it. -/
def do_execute (reset : Int) (result : Result) :
    Except ConnectionException Int × SqliteStatement :=
  if reset ≠ SQLITE_OK then (.error .DatabaseException, statement)
  else
    let rc := result.code
    let statement := { statement with answered := some result }
    if statement.isASelect then
      if rc = SQLITE_DONE then (.ok SQLITE_NOTFOUND, { statement with fetchIsDone := false })
      else (.ok SQLITE_OK, { statement with fetchIsDone := true })
    else if rc = SQLITE_DONE then (.ok SQLITE_OK, statement)
    else (.ok rc, statement)

def do_fetch (result : Result) : Bool × SqliteStatement :=
  if statement.fetchIsDone then (true, { statement with fetchIsDone := false })
  else (result.code == SQLITE_ROW, { statement with answered := some result })

inductive Call where
  | execute (reset : Int) (result : Result)
  | fetch (result : Result)
deriving DecidableEq, Repr

def step : Call → SqliteStatement
  | .execute reset result => (statement.do_execute reset result).2
  | .fetch result => (statement.do_fetch result).2

/-- The code that a statement with so many columns is to report. -/
def expected (columns : Nat) (result : Result) : Int :=
  match result with
  | .row => if 0 < columns then SQLITE_OK else SQLITE_ROW
  | .done => if 0 < columns then SQLITE_NOTFOUND else SQLITE_OK
  | .error code _ => code

/-- The code is the one of the result, each fetch from there on that returns true has a row to read,
and a connection counts no statement that failed. -/
structure IsFaithful (columns : Nat) (result : Result) : Prop where
  code : (statement.do_execute SQLITE_OK result).1 = .ok (expected columns result)
  fetch : ∀ fetches answer,
    let fetched := Runs.run step (statement.do_execute SQLITE_OK result).2 (List.map .fetch fetches)
    (fetched.do_fetch answer).1 = true → (fetched.do_fetch answer).2.answered = some .row
  pending : ∀ code h, result = .error code h →
    ∀ {σ : Type} (backend : Backend σ) (connection : Connection σ) (base : Statement),
      let outcome := (statement.do_execute SQLITE_OK result).1.map interpret
      outcome ≠ .ok .successful ∧
        (connection.execute backend base outcome).2.m_commitPending = connection.m_commitPending

/-- The text tells a query from the other statements, and one that is taken for a query does not
fail. -/
def Told (columns : Nat) (result : Result) : Prop :=
  match result with
  | .error _ _ => statement.isASelect = false
  | _ => statement.isASelect = true ↔ 0 < columns

variable {statement} {columns : Nat} {result : Result}

theorem do_execute_of_isASelect (h : statement.isASelect = true) :
    statement.do_execute SQLITE_OK result =
      (.ok (if result = .done then SQLITE_NOTFOUND else SQLITE_OK),
        { statement with fetchIsDone := decide (result ≠ .done), answered := some result }) := by
  have hselect : isASelect { statement with answered := some result } = true := h
  rw [do_execute, if_neg (by simp)]
  simp only [hselect, if_true, Result.code_eq_done]
  by_cases hdone : result = .done <;> simp [hdone]

theorem do_execute_of_not_isASelect (h : statement.isASelect = false) :
    statement.do_execute SQLITE_OK result =
      (.ok (if result = .done then SQLITE_OK else result.code),
        { statement with answered := some result }) := by
  have hselect : isASelect { statement with answered := some result } = false := h
  rw [do_execute, if_neg (by simp)]
  simp only [hselect, Result.code_eq_done]
  by_cases hdone : result = .done <;> simp [hdone]

/-- Only a statement that is taken for a query keeps a row for the first fetch. -/
def Settled (statement : SqliteStatement) : Prop :=
  statement.isASelect = false → statement.fetchIsDone = false

theorem settled_step (statement : SqliteStatement) (call : Call) (h : statement.Settled) :
    (statement.step call).Settled := by
  cases call with
  | execute reset result =>
    by_cases hreset : reset = SQLITE_OK
    · subst hreset
      cases hselect : statement.isASelect with
      | true =>
        intro hnot
        rw [step, do_execute_of_isASelect hselect] at hnot
        exact absurd (hselect.symm.trans hnot) (by decide)
      | false =>
        intro _
        rw [step, do_execute_of_not_isASelect hselect]
        exact h hselect
    · rw [step, do_execute, if_pos hreset]
      exact h
  | fetch result =>
    rw [step, do_fetch]
    split
    · exact fun _ => rfl
    · exact h

theorem settled_run (h : statement.Settled) (calls : List Call) :
    (Runs.run step statement calls).Settled :=
  Runs.invariant settled_step h calls

theorem expression_step (call : Call) : (statement.step call).expression = statement.expression := by
  cases call with
  | execute reset result =>
    simp only [step, do_execute]
    repeat' split
    all_goals rfl
  | fetch result =>
    simp only [step, do_fetch]
    split <;> rfl

theorem expression_run (calls : List Call) :
    (Runs.run step statement calls).expression = statement.expression := by
  induction calls generalizing statement with
  | nil => rfl
  | cons call calls ih => rw [Runs.run_cons, ih, expression_step]

/-- A row that is kept for the next fetch is there. -/
def Holds (statement : SqliteStatement) : Prop :=
  statement.fetchIsDone = true → statement.answered = some .row

theorem holds_fetch (h : statement.Holds) (result : Result) :
    (statement.step (.fetch result)).Holds ∧
      ((statement.do_fetch result).1 = true →
        (statement.do_fetch result).2.answered = some .row) := by
  rw [step, do_fetch]
  cases hfetch : statement.fetchIsDone with
  | true => exact ⟨nofun, fun _ => h hfetch⟩
  | false =>
    rw [if_neg Bool.false_ne_true]
    refine ⟨nofun, fun hrow => ?_⟩
    have hrow : result.code = SQLITE_ROW := by simpa using hrow
    simp [Result.code_eq_row.mp hrow]

theorem holds_fetches (h : statement.Holds) (fetches : List Result) :
    (Runs.run step statement (fetches.map .fetch)).Holds := by
  induction fetches generalizing statement with
  | nil => exact h
  | cons fetch fetches ih => exact ih (holds_fetch h fetch).1

/-- A statement that fails, and is not taken for one that succeeds, is not counted. -/
theorem execute_failed {σ : Type} (backend : Backend σ) (connection : Connection σ)
    (base : Statement) {outcome : Except ConnectionException ResultCode}
    (h : outcome ≠ .ok .successful) :
    (connection.execute backend base outcome).2.m_commitPending = connection.m_commitPending := by
  unfold Connection.execute
  split
  · rfl
  · cases outcome with
    | error ex => rfl
    | ok result =>
      cases result with
      | successful => exact absurd rfl h
      | lostConnection => rfl
      | notFound | failed =>
        dsimp only
        split <;> rfl

theorem interpret_ne_successful {code : Int} (h : code ≠ SQLITE_OK) :
    interpret code ≠ .successful := by
  have hsuccessful : successful code = false := by simpa [successful] using h
  unfold interpret
  rw [hsuccessful]
  split
  · decide
  · rw [if_neg Bool.false_ne_true]
    split <;> decide

theorem code_iff_told : (statement.do_execute SQLITE_OK result).1 = .ok (expected columns result) ↔
    statement.Told columns result := by
  cases hselect : statement.isASelect with
  | true =>
    rw [do_execute_of_isASelect hselect]
    cases result with
    | error code h => simpa [Told, hselect, expected] using h.1.symm
    | row | done =>
      by_cases hcolumns : 0 < columns <;>
        simp [Told, hselect, expected, hcolumns, SQLITE_OK, SQLITE_ROW, SQLITE_NOTFOUND]
  | false =>
    rw [do_execute_of_not_isASelect hselect]
    cases result with
    | error code h => simp [Told, hselect, expected, Result.code]
    | row | done =>
      by_cases hcolumns : 0 < columns <;>
        simp [Told, hselect, expected, hcolumns, Result.code, SQLITE_OK, SQLITE_ROW, SQLITE_NOTFOUND]

theorem holds_do_execute (hsettled : statement.Settled) (h : statement.Told columns result) :
    (statement.do_execute SQLITE_OK result).2.Holds := by
  cases hselect : statement.isASelect with
  | true =>
    rw [do_execute_of_isASelect hselect]
    intro hfetch
    cases result with
    | row => rfl
    | done => simp at hfetch
    | error code herror => exact absurd (hselect.symm.trans h) (by decide)
  | false =>
    rw [do_execute_of_not_isASelect hselect]
    intro hfetch
    exact absurd ((hsettled hselect).symm.trans hfetch) (by decide)

theorem isFaithful_iff_told (hsettled : statement.Settled) :
    statement.IsFaithful columns result ↔ statement.Told columns result := by
  constructor
  · exact fun h => code_iff_told.mp h.code
  · intro h
    constructor
    · exact code_iff_told.mpr h
    · intro fetches answer
      exact (holds_fetch (holds_fetches (holds_do_execute hsettled h) fetches) answer).2
    · intro code herror heq σ backend connection base
      subst heq
      have hselect : statement.isASelect = false := h
      have houtcome : ((statement.do_execute SQLITE_OK (.error code herror)).1.map interpret) ≠
          .ok .successful := by
        rw [do_execute_of_not_isASelect hselect, if_neg nofun]
        intro hok
        exact interpret_ne_successful herror.1 (Except.ok.inj hok)
      exact ⟨houtcome, execute_failed backend connection base houtcome⟩

/-- Behind any calls the next execution is faithful just when its text contains `select` exactly if
it has columns, and does not contain it if it fails. -/
theorem isFaithful_iff (expression : Bytes) (columns : Nat) (calls : List Call) (result : Result) :
    (Runs.run step (instantiate expression) calls).IsFaithful columns result ↔
      (instantiate expression).Told columns result := by
  have hsettled : (Runs.run step (instantiate expression) calls).Settled :=
    settled_run (fun _ => rfl) calls
  have hselect : (Runs.run step (instantiate expression) calls).isASelect =
      (instantiate expression).isASelect := by
    rw [isASelect, expression_run]
    rfl
  rw [isFaithful_iff_told hsettled]
  cases result with
  | row | done | error => simp only [Told, hselect]

/-- What the statements of `SqliteDatabase` tell apart of a result. -/
def answers (answers : Answers) (reset : Int) (result : Result) : Answers :=
  { answers with
    reset := reset == SQLITE_OK
    step := match result with
      | .row => .row
      | .done => .done
      | .error code _ => if lostConnection code then .lost else .other }

/-- Without its texts and codes the execution is the one of a statement of `SqliteDatabase`. No
`sqlite3_step` fails with `SQLITE_NOTFOUND`. -/
theorem do_execute_refines (prepared : Dbms.SqliteStatement)
    (hselect : prepared.isASelect = statement.isASelect) (himpl : prepared.impl.isSome)
    (hfetch : prepared.fetchIsDone = statement.fetchIsDone) (reset : Int)
    (hresult : result.code ≠ SQLITE_NOTFOUND) (connection : Nat) (before : Answers)
    (handle : Option Nat) (journal : Sqlite3.History) :
    let after := prepared.do_execute connection (answers before reset result) handle journal
    after.1 = (statement.do_execute reset result).1.map interpret ∧
      after.2.1.fetchIsDone = (statement.do_execute reset result).2.fetchIsDone := by
  by_cases hreset : reset = SQLITE_OK
  · have hstep : Dbms.SqliteStatement.sqlite3_step prepared (answers before reset result) =
        (answers before reset result).step := by rw [Dbms.SqliteStatement.sqlite3_step, if_pos himpl]
    have hnot : ¬ (prepared.impl.isSome && !(answers before reset result).reset) = true := by
      simp [answers, hreset]
    subst hreset
    unfold Dbms.SqliteStatement.do_execute
    rw [if_neg hnot, hstep, hselect]
    cases hselected : statement.isASelect with
    | true =>
      rw [do_execute_of_isASelect hselected]
      cases result with
      | row | done => exact ⟨rfl, rfl⟩
      | error code h =>
        have hne : (answers before SQLITE_OK (.error code h)).step ≠ .done := by
          by_cases hlost : lostConnection code <;> simp [answers, hlost]
        rw [if_pos rfl, if_neg hne]
        exact ⟨rfl, rfl⟩
    | false =>
      rw [do_execute_of_not_isASelect hselected]
      cases result with
      | row | done => exact ⟨rfl, hfetch⟩
      | error code h =>
        by_cases hlost : lostConnection code
        · simp [answers, hlost, Except.map, interpret, Result.code, hfetch]
        · have hok : successful code = false := by simpa [successful] using h.1
          have hfound : notFound code = false := by simpa [notFound, Result.code] using hresult
          simp [answers, hlost, Except.map, interpret, Result.code, hfetch, hok, hfound]
  · simp [Dbms.SqliteStatement.do_execute, do_execute, himpl, hreset, answers, hfetch, Except.map]

/-- An INSERT with a SELECT inside that breaks a constraint. -/
theorem not_isFaithful : ¬ ∀ expression columns calls result,
    (Runs.run step (instantiate expression) calls).IsFaithful columns result := by
  intro h
  have hpending := (h (text "insert into t select a from s") 0 [] (.error 19 (by decide))).pending
    19 (by decide) rfl (SqliteHandle.backend ⟨.error, true, true, true, .done, true, true, true⟩)
    ⟨0, false, 0, 0, false, ⟨none, 0⟩⟩ ⟨true, .Rollback⟩
  exact absurd hpending.2 (by decide +kernel)

end SqliteStatement

end Coffee.Dbms.SqliteResult
