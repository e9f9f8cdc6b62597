import Coffee.Dbms.SqliteResult
import Coffee.Library.Cursor

/-! # Cursors of the statements

`SqliteStatement` steps a `sqlite3_stmt`, which begins again behind `SQLITE_DONE`. `LdapStatement`
walks through the entries of a search. The rows of an execution are numbered from 0.
-/

open Coffee.Basis Coffee.Library

namespace Coffee.Dbms.SqliteResult

structure SqliteCursor where
  statement : SqliteStatement
  /-- The rows of the execution in hand, the next one, and the one that can be read. -/
  rows : Nat
  next : Nat
  current : Option Nat
deriving DecidableEq, Repr

namespace SqliteCursor

variable (cursor : SqliteCursor)

/-- `n` is the number of rows behind the reset. -/
def sqlite3_reset (n : Nat) : SqliteCursor := { cursor with rows := n, next := 0, current := none }

def sqlite3_step : Result × SqliteCursor :=
  if cursor.next < cursor.rows then
    (.row, { cursor with next := cursor.next + 1, current := some cursor.next })
  else (.done, { cursor with next := 0, current := none })

def do_execute (n : Nat) : Except ConnectionException Int × SqliteCursor :=
  let (result, stepped) := (cursor.sqlite3_reset n).sqlite3_step
  let (rc, statement) := cursor.statement.do_execute SQLITE_OK result
  (rc, { stepped with statement })

def do_fetch : Bool × SqliteCursor :=
  let (result, stepped) := cursor.sqlite3_step
  let (fetched, statement) := cursor.statement.do_fetch result
  -- a fetch that only hands the first row over does not step
  (fetched, { if cursor.statement.fetchIsDone then cursor else stepped with statement })

def machine : Cursor.Machine SqliteCursor where
  execute n cursor := (cursor.do_execute n).2
  fetch cursor := (if cursor.do_fetch.1 then cursor.do_fetch.2.current else none, cursor.do_fetch.2)

/-- The first row is kept back by the execution of a query, or is the next one. -/
def At (n p : Nat) (cursor : SqliteCursor) : Prop :=
  cursor.rows = n ∧
    (cursor.statement.fetchIsDone = true ∧ p = 0 ∧ 0 < n ∧ cursor.next = 1 ∧
        cursor.current = some 0 ∨
      cursor.statement.fetchIsDone = false ∧ cursor.next = p)

def Of (expression : Bytes) (cursor : SqliteCursor) : Prop :=
  cursor.statement.Settled ∧ cursor.statement.expression = expression

/-- A statement that is not taken for a query loses its first row. -/
def start (expression : Bytes) (n : Nat) : Nat :=
  if (SqliteStatement.instantiate expression).isASelect then 0 else min 1 n

variable {cursor : SqliteCursor}

/-- What the library does to the statement is one of its steps. -/
theorem statement_step (cursor : SqliteCursor) (call : Cursor.Call) :
    ∃ step, (machine.step cursor call).2.statement = cursor.statement.step step := by
  cases call with
  | execute n => exact ⟨.execute SQLITE_OK ((cursor.sqlite3_reset n).sqlite3_step).1, rfl⟩
  | fetch => exact ⟨.fetch cursor.sqlite3_step.1, rfl⟩

theorem of_step {expression : Bytes} (h : cursor.Of expression) (call : Cursor.Call) :
    (machine.step cursor call).2.Of expression := by
  obtain ⟨step, hstep⟩ := statement_step cursor call
  rw [Of, hstep, SqliteStatement.expression_step]
  exact ⟨SqliteStatement.settled_step _ step h.1, h.2⟩

theorem at_execute {expression : Bytes} (h : cursor.Of expression) (n : Nat) :
    At n (start expression n) (cursor.do_execute n).2 := by
  obtain ⟨hsettled, rfl⟩ := h
  have hselect : (SqliteStatement.instantiate cursor.statement.expression).isASelect =
      cursor.statement.isASelect := rfl
  rw [start, hselect]
  unfold do_execute
  cases hselected : cursor.statement.isASelect with
  | true =>
    simp only [SqliteStatement.do_execute_of_isASelect hselected]
    by_cases hn : 0 < n
    · simp [At, sqlite3_step, sqlite3_reset, hn]
    · simp [At, sqlite3_step, sqlite3_reset, hn]
  | false =>
    simp only [SqliteStatement.do_execute_of_not_isASelect hselected]
    have hfetch := hsettled hselected
    by_cases hn : 0 < n
    · have hmin : min 1 n = 1 := by omega
      simp [At, sqlite3_step, sqlite3_reset, hn, hfetch, hmin]
    · have hmin : min 1 n = 0 := by omega
      simp [At, sqlite3_step, sqlite3_reset, hn, hfetch, hmin]

theorem circulates (expression : Bytes) :
    Cursor.Circulates machine (Of expression) At (start expression) := by
  constructor
  · exact fun cursor call h => of_step h call
  · intro n
    unfold start
    split <;> omega
  · exact fun n cursor h => at_execute h n
  · rintro n p cursor ⟨rfl, hat⟩ hlt
    obtain ⟨hfetch, rfl, hn, hnext, hcurrent⟩ | ⟨hfetch, rfl⟩ := hat
    · simp [machine, do_fetch, SqliteStatement.do_fetch, At, hfetch, hnext, hcurrent]
    · simp [machine, do_fetch, SqliteStatement.do_fetch, At, hfetch, sqlite3_step, hlt, Result.code]
  · rintro n cursor ⟨rfl, hat⟩
    obtain ⟨hfetch, hzero, hn, -⟩ | ⟨hfetch, hnext⟩ := hat
    · omega
    · simp [machine, do_fetch, SqliteStatement.do_fetch, At, hfetch, sqlite3_step, hnext, Result.code,
        SQLITE_DONE, SQLITE_ROW]

end SqliteCursor

end Coffee.Dbms.SqliteResult

namespace Coffee.Dbms

def LDAP_SUCCESS : Int := 0
def LDAP_NO_SUCH_OBJECT : Int := 32

/-- A result is the number of its entries. -/
structure LdapStatement where
  result : Option Nat
  currentEntry : Option Nat
deriving DecidableEq, Repr

namespace LdapStatement

variable (statement : LdapStatement)

def close : LdapStatement := { statement with currentEntry := none }

/-- `rc` and `found` are what `ldap_search_ext_s` returns. -/
def do_execute (rc : Int) (found : Option Nat) : Int × LdapStatement :=
  let statement := { statement.close with result := found }
  if rc = LDAP_SUCCESS ∧ statement.result.getD 0 = 0 then
    (LDAP_NO_SUCH_OBJECT, { statement with result := none })
  else (rc, statement)

def ldap_first_entry (result : Nat) : Option Nat := if 0 < result then some 0 else none

def ldap_next_entry (result entry : Nat) : Option Nat :=
  if entry + 1 < result then some (entry + 1) else none

def do_fetch : Bool × LdapStatement :=
  match statement.result with
  | none => (false, statement)
  | some result =>
    let currentEntry := match statement.currentEntry with
      | none => ldap_first_entry result
      | some entry => ldap_next_entry result entry
    (currentEntry.isSome, { statement with currentEntry })

def machine : Cursor.Machine LdapStatement where
  execute n statement := (statement.do_execute LDAP_SUCCESS (some n)).2
  fetch statement := (if statement.do_fetch.1 then statement.do_fetch.2.currentEntry else none,
    statement.do_fetch.2)

/-- In front of the first entry there is no current one. -/
def At (n p : Nat) (statement : LdapStatement) : Prop :=
  statement = ⟨if n = 0 then none else some n, if p = 0 then none else some (p - 1)⟩

theorem circulates : Cursor.Circulates machine (fun _ => True) At fun _ => 0 := by
  constructor
  · exact fun _ _ _ => trivial
  · exact fun n => Nat.zero_le n
  · intro n statement _
    by_cases hn : n = 0 <;> simp [machine, do_execute, close, At, hn]
  · rintro n p statement rfl hlt
    have hn : n ≠ 0 := by omega
    by_cases hp : p = 0
    · subst hp
      simp [machine, do_fetch, At, hn, hlt, ldap_first_entry]
    · have hback : p - 1 + 1 = p := by omega
      simp [machine, do_fetch, At, hn, hp, hback, hlt, ldap_next_entry]
  · rintro n statement rfl
    by_cases hn : n = 0
    · simp [machine, do_fetch, At, hn]
    · have hback : n - 1 + 1 = n := by omega
      simp [machine, do_fetch, At, hn, hback, ldap_next_entry]

end LdapStatement

/-- Both statements hand over the rows of each execution just in the runs that fetch no more behind
the first miss, unless there is no row; the one of SQLITE must be taken for a query. -/
theorem obeys_iff (expression : Bytes) (history : List SqliteResult.SqliteStatement.Call)
    (rows next : Nat) (current : Option Nat) (ldap : LdapStatement) (calls : List Cursor.Call) :
    (LdapStatement.machine.Obeys ldap calls ↔
        ∀ n m, Cursor.Phase calls n m → n = 0 ∨ m ≤ n + 1) ∧
      (SqliteResult.SqliteCursor.machine.Obeys
          ⟨Runs.run SqliteResult.SqliteStatement.step (.instantiate expression) history, rows, next,
            current⟩ calls ↔
        ∀ n m, Cursor.Phase calls n m → n = 0 ∨ m = 0 ∨
          ((SqliteResult.SqliteStatement.instantiate expression).isASelect = true ∧ m ≤ n + 1)) := by
  constructor
  · refine (LdapStatement.circulates.obeys_iff_phase trivial calls).trans ?_
    refine forall₂_congr fun n m => imp_congr_right fun _ => ?_
    constructor <;> omega
  · have hof : SqliteResult.SqliteCursor.Of expression
        ⟨Runs.run SqliteResult.SqliteStatement.step (.instantiate expression) history, rows, next,
          current⟩ :=
      ⟨SqliteResult.SqliteStatement.settled_run (fun _ => rfl) history,
        SqliteResult.SqliteStatement.expression_run history⟩
    refine ((SqliteResult.SqliteCursor.circulates expression).obeys_iff_phase hof calls).trans ?_
    refine forall₂_congr fun n m => imp_congr_right fun _ => ?_
    rw [SqliteResult.SqliteCursor.start]
    cases (SqliteResult.SqliteStatement.instantiate expression).isASelect with
    | true => simp
    | false =>
      rw [if_neg Bool.false_ne_true]
      simp only [Bool.false_eq_true, false_and, or_false]
      omega

/-- A search with one entry, and a query with one row, with three fetches behind. -/
theorem not_obeys :
    (¬ ∀ (ldap : LdapStatement) (calls : List Cursor.Call),
      LdapStatement.machine.Obeys ldap calls) ∧
    ¬ ∀ (expression : Bytes) (calls : List Cursor.Call),
      SqliteResult.SqliteCursor.machine.Obeys ⟨.instantiate expression, 0, 0, none⟩ calls := by
  constructor
  · intro h
    have hrows := h ⟨none, none⟩ [.execute 1, .fetch, .fetch, .fetch] [] 1 3 [] rfl
    exact absurd hrows (by decide)
  · intro h
    have hrows := h (text "select a from t") [.execute 1, .fetch, .fetch, .fetch] [] 1 3 [] rfl
    exact absurd hrows (by decide +kernel)

end Coffee.Dbms
