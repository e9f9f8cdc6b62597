import Mathlib.Data.List.Induction
import Coffee.Dbms.Connection

/-! # Guarded sections

What one `GuardConnection` does to an SQLite database: the lock of its constructor, the operations
of its user and the unlock of its destructor. BEGIN is issued by the lock only, so behind the first
commit of a section each statement is permanent at once.
-/

namespace Coffee.Dbms

open Coffee.Library

/-- How the execution of a statement can end while the connection is not lost. -/
inductive Execution where
  | succeeds | finds_nothing | fails | throws (ex : ConnectionException)
deriving DecidableEq, Repr

namespace Execution

def outcome : Execution → Except ConnectionException ResultCode
  | succeeds => .ok .successful
  | finds_nothing => .ok .notFound
  | fails => .ok .failed
  | throws ex => .error ex

/-- The statement comes back with a result code that is no success. -/
def unsuccessful : Execution → Bool
  | finds_nothing => true
  | fails => true
  | _ => false

end Execution

inductive Operation where
  | execute (actionOnError : ActionOnError) (execution : Execution)
  | commit
  | setMaxCommitPending (maxCommitPending : Int)
deriving DecidableEq, Repr

/-- The user of the connection goes on after an exception. -/
def step (connection : Connection Sqlite) : Operation → Connection Sqlite
  | .execute actionOnError execution =>
    (connection.execute sqlite ⟨true, actionOnError⟩ execution.outcome).2
  | .commit => (connection.commit sqlite).2
  | .setMaxCommitPending maxCommitPending => connection.setMaxCommitPending maxCommitPending

def idle (commitPending : Int) (rollbackPending : Bool) (maxCommitPending : Int) :
    Connection Sqlite where
  m_commitPending := commitPending
  m_rollbackPending := rollbackPending
  m_maxCommitPending := maxCommitPending
  m_lockingCounter := 0
  m_mutex := false
  database := ⟨none, [], [], []⟩

def locked (commitPending : Int) (rollbackPending : Bool) (maxCommitPending : Int) :
    Connection Sqlite :=
  ((idle commitPending rollbackPending maxCommitPending).lock sqlite).2

/-- A statement that asks for a rollback is run and fails, with a result code or an exception. -/
def FailsWithRollback (connection : Connection Sqlite) (operation : Operation) : Prop :=
  connection.m_rollbackPending = false ∧
    ∃ execution, operation = .execute .Rollback execution ∧ execution ≠ .succeeds

/-- What a section owes its user when it ends behind the given operations. -/
structure Atomic (connection : Connection Sqlite) (operations : List Operation) : Prop where
  rollback : ∀ pre operation post, operations = pre ++ operation :: post →
    FailsWithRollback (Runs.run step connection pre) operation → .commit ∉ post →
    ∀ number ∈ (Runs.run step connection operations).database.sinceCommit,
      number ∉ ((Runs.run step connection operations).unlock sqlite).database.permanent
  commit : (∀ pre operation post, operations = pre ++ operation :: post →
      ¬ FailsWithRollback (Runs.run step connection pre) operation) →
    ∀ number ∈ (Runs.run step connection operations).database.executed,
      number ∈ ((Runs.run step connection operations).unlock sqlite).database.permanent

/-- The failures that make a rollback due. -/
def Revokes (connection : Connection Sqlite) (operation : Operation) : Prop :=
  connection.m_rollbackPending = false ∧
    ∃ execution, operation = .execute .Rollback execution ∧ execution.unsuccessful = true

/-- The failures that pass through `execute` and leave no trace in the connection. -/
def Forgets (connection : Connection Sqlite) (operation : Operation) : Prop :=
  connection.m_rollbackPending = false ∧ ∃ ex, operation = .execute .Rollback (.throws ex)

/-- Such a failure lies behind, and no commit was called since. -/
def Forgotten (connection : Connection Sqlite) (performed : List Operation) : Prop :=
  ∃ pre operation post, performed = pre ++ operation :: post ∧
    Forgets (Runs.run step connection pre) operation ∧ .commit ∉ post

def written (connection : Connection Sqlite) : Connection Sqlite :=
  { connection with
    database := connection.database.write
    m_commitPending := connection.m_commitPending + 1 }

/-- What the next operation of a section needs to be revocable. A failure with a result code comes
while the transaction is open or nothing waits for a commit, one with an exception while nothing was
executed behind the last commit, and behind that no statement succeeds but to be committed at once. -/
structure Revocable (connection : Connection Sqlite) (performed : List Operation)
    (operation : Operation) : Prop where
  revoked : Revokes (Runs.run step connection performed) operation →
    (Runs.run step connection performed).database.transaction.isSome = true ∨
      (Runs.run step connection performed).m_commitPending = 0
  forgotten : Forgets (Runs.run step connection performed) operation →
    (Runs.run step connection performed).database.sinceCommit = []
  behind : Forgotten connection performed →
    (Runs.run step connection performed).m_rollbackPending = false →
      ∀ actionOnError, operation = .execute actionOnError .succeeds →
        (Runs.run step connection performed).database.transaction.isSome = true ∧
          (written (Runs.run step connection performed)).reachMaxCommitPending = true

/-- The state between the lock and the unlock of a section. -/
structure Guarded (connection : Connection Sqlite) : Prop where
  counter : connection.m_lockingCounter = 1
  executed : connection.database.executed = List.range connection.database.executed.length
  inside : ∀ pending, connection.database.transaction = some pending →
    pending = connection.database.sinceCommit ∧ 0 < connection.m_commitPending ∧
      connection.database.permanent ++ pending = connection.database.executed
  outside : connection.database.transaction = none →
    connection.database.permanent = connection.database.executed ∧
      connection.database.sinceCommit <:+ connection.database.executed ∧
      connection.m_commitPending = connection.database.sinceCommit.length

variable {connection : Connection Sqlite}

theorem guarded_locked (commitPending : Int) (rollbackPending : Bool) (maxCommitPending : Int) :
    Guarded (locked commitPending rollbackPending maxCommitPending) where
  counter := rfl
  executed := rfl
  inside pending h := by
    cases h
    exact ⟨rfl, Int.one_pos, rfl⟩
  outside h := by cases h

theorem commit_cases (connection : Connection Sqlite) :
    (∃ pending, connection.database.transaction = some pending ∧
      (connection.commit sqlite).2 = { connection with
        m_commitPending := 0
        m_rollbackPending := false
        database := { connection.database with
          transaction := none
          permanent := connection.database.permanent ++ pending
          sinceCommit := [] } }) ∨
      (connection.database.transaction = none ∧ (connection.commit sqlite).2 = connection) := by
  cases htransaction : connection.database.transaction with
  | none =>
    refine Or.inr ⟨rfl, ?_⟩
    simp [Connection.commit, sqlite, Sqlite.commit, htransaction]
  | some pending =>
    refine Or.inl ⟨pending, rfl, ?_⟩
    simp [Connection.commit, sqlite, Sqlite.commit, htransaction]

theorem Guarded.commit (h : Guarded connection) : Guarded (connection.commit sqlite).2 := by
  rcases commit_cases connection with ⟨pending, hpending, hcommit⟩ | ⟨-, hcommit⟩
  · obtain ⟨-, -, hexecuted⟩ := h.inside pending hpending
    rw [hcommit]
    exact ⟨h.counter, h.executed, fun _ hnone => (by cases hnone),
      fun _ => ⟨hexecuted, List.nil_suffix, rfl⟩⟩
  · rw [hcommit]
    exact h

theorem Guarded.written (h : Guarded connection) : Guarded (written connection) := by
  refine ⟨h.counter, ?_, fun pending htransaction => ?_, fun htransaction => ?_⟩
  · simp only [Dbms.written, Sqlite.write_executed, List.length_append, List.length_singleton,
      List.range_succ]
    rw [← h.executed]
  · cases hopen : connection.database.transaction with
    | none =>
      rw [Dbms.written, (Sqlite.write_outside hopen).1] at htransaction
      cases htransaction
    | some before =>
      obtain ⟨hbefore, hpositive, hall⟩ := h.inside before hopen
      obtain ⟨hwait, hpermanent⟩ := Sqlite.write_inside hopen
      rw [Dbms.written, hwait, Option.some.injEq] at htransaction
      simp only [Dbms.written, Sqlite.write_executed, Sqlite.write_sinceCommit, hpermanent]
      rw [← htransaction, ← hbefore, ← hall, List.append_assoc]
      exact ⟨rfl, by omega, rfl⟩
  · cases hopen : connection.database.transaction with
    | some before =>
      rw [Dbms.written, (Sqlite.write_inside hopen).1] at htransaction
      cases htransaction
    | none =>
      obtain ⟨hall, ⟨old, hsuffix⟩, hcount⟩ := h.outside hopen
      simp only [Dbms.written, Sqlite.write_executed, Sqlite.write_sinceCommit,
        (Sqlite.write_outside hopen).2, hall, hcount]
      refine ⟨trivial, ⟨old, ?_⟩, by simp⟩
      rw [← List.append_assoc, hsuffix]

theorem execute_succeeds (h : connection.m_rollbackPending = false) (actionOnError : ActionOnError) :
    step connection (.execute actionOnError .succeeds) =
      if (written connection).reachMaxCommitPending then ((written connection).commit sqlite).2
      else written connection := by
  rw [step, Execution.outcome,
    Connection.execute_successful sqlite h actionOnError (rfl : written connection = _)]

/-- What `execute` does to the connection. -/
theorem execute_cases (connection : Connection Sqlite) (actionOnError : ActionOnError)
    (execution : Execution) :
    step connection (.execute actionOnError execution) = connection ∨
      (Revokes connection (.execute actionOnError execution) ∧
        step connection (.execute actionOnError execution) =
          { connection with m_rollbackPending := true }) ∨
      (connection.m_rollbackPending = false ∧ execution = .succeeds ∧
        (step connection (.execute actionOnError execution) = written connection ∨
          step connection (.execute actionOnError execution) =
            ((written connection).commit sqlite).2)) := by
  cases hpending : connection.m_rollbackPending with
  | true => exact Or.inl (by simp [step, Connection.execute, hpending])
  | false =>
    cases execution with
    | throws ex => exact Or.inl (by simp [step, Connection.execute, Execution.outcome, hpending])
    | succeeds =>
      refine Or.inr (Or.inr ⟨rfl, rfl, ?_⟩)
      rw [execute_succeeds hpending]
      split
      · exact Or.inr rfl
      · exact Or.inl rfl
    | finds_nothing =>
      cases actionOnError with
      | Ignore => exact Or.inl (by simp [step, Connection.execute, Execution.outcome, hpending])
      | Rollback =>
        refine Or.inr (Or.inl ⟨⟨hpending, _, rfl, rfl⟩, ?_⟩)
        simp [step, Connection.execute, Execution.outcome, hpending]
    | fails =>
      cases actionOnError with
      | Ignore => exact Or.inl (by simp [step, Connection.execute, Execution.outcome, hpending])
      | Rollback =>
        refine Or.inr (Or.inl ⟨⟨hpending, _, rfl, rfl⟩, ?_⟩)
        simp [step, Connection.execute, Execution.outcome, hpending]

theorem Guarded.step (h : Guarded connection) (operation : Operation) :
    Guarded (step connection operation) := by
  cases operation with
  | commit => exact h.commit
  | setMaxCommitPending maxCommitPending => exact ⟨h.counter, h.executed, h.inside, h.outside⟩
  | execute actionOnError execution =>
    rcases execute_cases connection actionOnError execution with
      hstep | ⟨-, hstep⟩ | ⟨-, -, hstep | hstep⟩ <;> rw [hstep]
    · exact h
    · exact ⟨h.counter, h.executed, h.inside, h.outside⟩
    · exact h.written
    · exact h.written.commit

theorem step_of_pending (h : connection.m_rollbackPending = true) (operation : Operation)
    (hop : operation ≠ .commit) :
    (step connection operation).m_rollbackPending = true ∧
      (step connection operation).database = connection.database ∧
      (step connection operation).m_commitPending = connection.m_commitPending := by
  cases operation with
  | commit => exact absurd rfl hop
  | setMaxCommitPending maxCommitPending => exact ⟨h, rfl, rfl⟩
  | execute actionOnError execution =>
    have hstep : step connection (.execute actionOnError execution) = connection := by
      simp [Dbms.step, Connection.execute, h]
    rw [hstep]
    exact ⟨h, rfl, rfl⟩

theorem run_of_pending (h : connection.m_rollbackPending = true) {operations : List Operation}
    (hops : .commit ∉ operations) :
    (Runs.run step connection operations).m_rollbackPending = true ∧
      (Runs.run step connection operations).database = connection.database ∧
      (Runs.run step connection operations).m_commitPending = connection.m_commitPending := by
  induction operations generalizing connection with
  | nil => exact ⟨h, rfl, rfl⟩
  | cons operation operations ih =>
    obtain ⟨hpending, hdatabase, hcount⟩ :=
      step_of_pending h operation fun e => hops (by simp [e])
    obtain ⟨hpending', hdatabase', hcount'⟩ := ih hpending fun hmem => hops (by simp [hmem])
    exact ⟨hpending', hdatabase'.trans hdatabase, hcount'.trans hcount⟩

theorem Revokes.failsWithRollback {operation : Operation} (h : Revokes connection operation) :
    FailsWithRollback connection operation := by
  obtain ⟨hpending, execution, hop, hunsuccessful⟩ := h
  refine ⟨hpending, execution, hop, ?_⟩
  rintro rfl
  cases hunsuccessful

theorem FailsWithRollback.cases {operation : Operation} (h : FailsWithRollback connection operation) :
    Revokes connection operation ∨ Forgets connection operation := by
  obtain ⟨hpending, execution, hop, hfails⟩ := h
  cases execution with
  | succeeds => exact absurd rfl hfails
  | finds_nothing => exact Or.inl ⟨hpending, _, hop, rfl⟩
  | fails => exact Or.inl ⟨hpending, _, hop, rfl⟩
  | throws ex => exact Or.inr ⟨hpending, ex, hop⟩

theorem Forgets.failsWithRollback {operation : Operation} (h : Forgets connection operation) :
    FailsWithRollback connection operation := by
  obtain ⟨hpending, ex, hop⟩ := h
  exact ⟨hpending, _, hop, by simp⟩

theorem commit_not_pending (h : connection.m_rollbackPending = false) :
    (connection.commit sqlite).2.m_rollbackPending = false := by
  rcases commit_cases connection with ⟨_, -, hcommit⟩ | ⟨-, hcommit⟩ <;> rw [hcommit]
  exact h

theorem step_not_pending (h : connection.m_rollbackPending = false) {operation : Operation}
    (hop : ¬ Revokes connection operation) :
    (step connection operation).m_rollbackPending = false := by
  cases operation with
  | commit => exact commit_not_pending h
  | setMaxCommitPending maxCommitPending => exact h
  | execute actionOnError execution =>
    rcases execute_cases connection actionOnError execution with
      hstep | ⟨hfails, -⟩ | ⟨-, -, hstep | hstep⟩
    · rw [hstep]
      exact h
    · exact absurd hfails hop
    · rw [hstep]
      exact h
    · rw [hstep]
      exact @commit_not_pending (written connection) h

theorem step_revokes {operation : Operation} (h : Revokes connection operation) :
    step connection operation = { connection with m_rollbackPending := true } := by
  obtain ⟨hpending, execution, rfl, hunsuccessful⟩ := h
  cases execution with
  | finds_nothing => simp [step, Connection.execute, Execution.outcome, hpending]
  | fails => simp [step, Connection.execute, Execution.outcome, hpending]
  | succeeds => cases hunsuccessful
  | throws ex => cases hunsuccessful

theorem step_forgets {operation : Operation} (h : Forgets connection operation) :
    step connection operation = connection := by
  obtain ⟨hpending, ex, rfl⟩ := h
  simp [step, Connection.execute, Execution.outcome, hpending]

/-- The unlock commits an open transaction unless a rollback is due. -/
theorem Guarded.unlock_permanent (h : Guarded connection) :
    (connection.unlock sqlite).database.permanent =
      if connection.m_rollbackPending then connection.database.permanent
      else connection.database.permanent ++ connection.database.transaction.getD [] := by
  rw [Connection.unlock, if_pos (by simp [h.counter])]
  dsimp only
  cases hpending : connection.m_rollbackPending with
  | true =>
    cases htransaction : connection.database.transaction <;>
      simp [Connection.rollback, sqlite, Sqlite.rollback, htransaction]
  | false =>
    cases htransaction : connection.database.transaction with
    | none =>
      rw [if_neg (by simp)]
      split <;> simp [Connection.commit, sqlite, Sqlite.commit, htransaction]
    | some pending =>
      have hpositive := (h.inside pending htransaction).2.1
      simp [Connection.commit, sqlite, Sqlite.commit, htransaction, hpositive]

theorem Guarded.nodup (h : Guarded connection) : connection.database.executed.Nodup :=
  h.executed ▸ List.nodup_range

theorem Guarded.revoked (h : Guarded connection) (hpending : connection.m_rollbackPending = true)
    (hrevocable : connection.database.transaction.isSome = true ∨ connection.m_commitPending = 0) :
    ∀ number ∈ connection.database.sinceCommit,
      number ∉ (connection.unlock sqlite).database.permanent := by
  intro number hnumber
  rw [h.unlock_permanent, if_pos hpending]
  cases htransaction : connection.database.transaction with
  | some pending =>
    obtain ⟨rfl, -, hall⟩ := h.inside pending htransaction
    have hnodup := hall ▸ h.nodup
    exact fun hmem => (List.nodup_append.mp hnodup).2.2 number hmem number hnumber rfl
  | none =>
    have hcount := (h.outside htransaction).2.2
    have hzero : connection.m_commitPending = 0 := by simpa [htransaction] using hrevocable
    have hnone : connection.database.sinceCommit = [] := List.eq_nil_of_length_eq_zero (by omega)
    rw [hnone] at hnumber
    cases hnumber

theorem Guarded.kept (h : Guarded connection) (hpending : connection.m_rollbackPending = false)
    {number : Nat} (hnumber : number ∈ connection.database.sinceCommit) :
    number ∈ (connection.unlock sqlite).database.permanent := by
  rw [h.unlock_permanent, if_neg (by simp [hpending])]
  cases htransaction : connection.database.transaction with
  | none =>
    obtain ⟨hall, hsuffix, -⟩ := h.outside htransaction
    rw [hall]
    exact List.mem_append_left _ (hsuffix.subset hnumber)
  | some pending =>
    obtain ⟨rfl, -, -⟩ := h.inside pending htransaction
    exact List.mem_append_right _ hnumber

/-- A section that ends in front of the unlock without a rollback due owes nothing only when nothing
waits for a commit. -/
theorem Guarded.nothing_of_revoked (h : Guarded connection)
    (hpending : connection.m_rollbackPending = false)
    (hrevoked : ∀ number ∈ connection.database.sinceCommit,
      number ∉ (connection.unlock sqlite).database.permanent) :
    connection.database.sinceCommit = [] :=
  List.eq_nil_iff_forall_not_mem.mpr fun number hnumber =>
    hrevoked number hnumber (h.kept hpending hnumber)

/-- A statement that succeeds leaves nothing to wait for just when it is committed at once. -/
theorem sinceCommit_of_succeeds (h : connection.m_rollbackPending = false)
    (actionOnError : ActionOnError) :
    (step connection (.execute actionOnError .succeeds)).database.sinceCommit = [] ↔
      connection.database.transaction.isSome = true ∧
        (written connection).reachMaxCommitPending = true := by
  have hwritten : (written connection).database.sinceCommit ≠ [] := by simp [written]
  rw [execute_succeeds h]
  split
  · rename_i hfull
    cases hopen : connection.database.transaction with
    | none =>
      have houtside : (written connection).database.transaction = none :=
        (Sqlite.write_outside hopen).1
      rcases commit_cases (written connection) with ⟨pending, hsome, -⟩ | ⟨-, hcommit⟩
      · rw [houtside] at hsome
        cases hsome
      · rw [hcommit]
        exact iff_of_false hwritten (by simp)
    | some pending =>
      have hinside : (written connection).database.transaction = some _ :=
        (Sqlite.write_inside hopen).1
      rcases commit_cases (written connection) with ⟨_, -, hcommit⟩ | ⟨hnone, -⟩
      · rw [hcommit]
        exact iff_of_true rfl ⟨rfl, hfull⟩
      · rw [hinside] at hnone
        cases hnone
  · rename_i hfull
    exact iff_of_false hwritten fun h => hfull h.2

/-- Behind a failure that leaves no trace nothing waits for a commit, up to the next one. -/
theorem sinceCommit_of_forgets {pre post : List Operation} {operation : Operation}
    (hmeets : ∀ before next behind, pre ++ operation :: post = before ++ next :: behind →
      Revocable connection before next)
    (hforgets : Forgets (Runs.run step connection pre) operation) (hcommit : .commit ∉ post) :
    (Runs.run step connection (pre ++ operation :: post)).database.sinceCommit = [] := by
  induction post using List.reverseRecOn with
  | nil =>
    rw [Runs.run_concat, step_forgets hforgets]
    exact (hmeets pre operation [] rfl).forgotten hforgets
  | append_singleton post last ih =>
    have hearlier : .commit ∉ post := fun hmem => hcommit (List.mem_append_left _ hmem)
    have hbefore := ih (fun before next behind hsplit => hmeets before next (behind ++ [last]) (by
      rw [← List.cons_append, ← List.append_assoc, hsplit, List.append_assoc, List.cons_append]))
      hearlier
    have hlast := hmeets (pre ++ operation :: post) last [] (by simp)
    have hbehind : Forgotten connection (pre ++ operation :: post) :=
      ⟨pre, operation, post, rfl, hforgets, hearlier⟩
    rw [← List.cons_append, ← List.append_assoc, Runs.run_concat]
    cases last with
    | commit => exact absurd (List.mem_append_right _ List.mem_cons_self) hcommit
    | setMaxCommitPending maxCommitPending => exact hbefore
    | execute actionOnError execution =>
      rcases execute_cases (Runs.run step connection (pre ++ operation :: post)) actionOnError
        execution with hstep | ⟨-, hstep⟩ | ⟨hpending, rfl, -⟩
      · rw [hstep]
        exact hbefore
      · rw [hstep]
        exact hbefore
      · exact (sinceCommit_of_succeeds hpending actionOnError).mpr
          (hlast.behind hbehind hpending actionOnError rfl)

/-- Every prefix of a section is atomic exactly when each of its failures can still be undone at
the step that fails. -/
theorem atomic_iff_revocable (commitPending : Int) (rollbackPending : Bool) (maxCommitPending : Int)
    (operations : List Operation) :
    (∀ performed, performed <+: operations →
      Atomic (locked commitPending rollbackPending maxCommitPending) performed) ↔
    ∀ pre operation post, operations = pre ++ operation :: post →
      Revocable (locked commitPending rollbackPending maxCommitPending) pre operation := by
  have hguarded : ∀ performed, Guarded (Runs.run step
      (locked commitPending rollbackPending maxCommitPending) performed) := fun performed =>
    Runs.invariant (fun _ operation h => h.step operation) (guarded_locked _ _ _) performed
  have hfresh : (locked commitPending rollbackPending maxCommitPending).m_rollbackPending = false :=
    rfl
  generalize locked commitPending rollbackPending maxCommitPending = connection at hguarded hfresh ⊢
  constructor
  · rintro h pre operation post rfl
    have hatomic := h (pre ++ [operation]) (by simp)
    have hlast := hguarded (pre ++ [operation])
    refine ⟨fun hrevokes => ?_, fun hforgets => ?_, fun hforgotten hpending actionOnError hop => ?_⟩
    · have hrollback := hatomic.rollback pre operation [] rfl hrevokes.failsWithRollback
        List.not_mem_nil
      rw [Runs.run_concat, step_revokes hrevokes] at hlast hrollback
      rw [hlast.unlock_permanent, if_pos rfl] at hrollback
      cases htransaction : (Runs.run step connection pre).database.transaction with
      | some pending => exact Or.inl rfl
      | none =>
        obtain ⟨hall, hsuffix, hcount⟩ := (hguarded pre).outside htransaction
        have hnone : (Runs.run step connection pre).database.sinceCommit = [] := by
          refine List.eq_nil_iff_forall_not_mem.mpr fun number hnumber => ?_
          exact hrollback number hnumber (hall ▸ hsuffix.subset hnumber)
        exact Or.inr (by rw [hcount, hnone]; rfl)
    · have hrollback := hatomic.rollback pre operation [] rfl hforgets.failsWithRollback
        List.not_mem_nil
      rw [Runs.run_concat, step_forgets hforgets] at hlast hrollback
      exact hlast.nothing_of_revoked hforgets.1 hrollback
    · obtain ⟨before, forgets, behind, rfl, hforgets, hcommit⟩ := hforgotten
      subst hop
      have hrollback := hatomic.rollback before forgets (behind ++ [.execute actionOnError .succeeds])
        (by simp) hforgets.failsWithRollback (by simpa using hcommit)
      have hsucceeds : ¬ Revokes (Runs.run step connection (before ++ forgets :: behind))
          (.execute actionOnError .succeeds) := by
        rintro ⟨-, execution, hop, hunsuccessful⟩
        cases hop
        cases hunsuccessful
      have hafter := step_not_pending hpending hsucceeds
      rw [Runs.run_concat] at hlast hrollback
      exact (sinceCommit_of_succeeds hpending actionOnError).mp
        (hlast.nothing_of_revoked hafter hrollback)
  · rintro h performed ⟨rest, rfl⟩
    have hmeets : ∀ pre operation post, performed = pre ++ operation :: post →
        Revocable connection pre operation := by
      rintro pre operation post rfl
      exact h pre operation (post ++ rest) (by simp)
    refine ⟨fun pre operation post hsplit hfails hcommit => ?_, fun hnone number hnumber => ?_⟩
    · subst hsplit
      rcases hfails.cases with hrevokes | hforgets
      · have hlast := hguarded (pre ++ operation :: post)
        rw [Runs.run_append, Runs.run_cons, step_revokes hrevokes] at hlast ⊢
        have hdue : ({ Runs.run step connection pre with
          m_rollbackPending := true } : Connection Sqlite).m_rollbackPending = true := rfl
        obtain ⟨hpending, hdatabase, hcount⟩ := run_of_pending hdue hcommit
        refine hlast.revoked hpending ?_
        rw [hdatabase, hcount]
        exact (hmeets pre operation post rfl).revoked hrevokes
      · rw [sinceCommit_of_forgets hmeets hforgets hcommit]
        exact fun _ hnumber => nomatch hnumber
    · have hquiet : Runs.Meets step (fun connection operation =>
          ¬ Revokes connection operation) connection performed :=
        Runs.meets_iff.mpr fun pre operation post hsplit hrevokes =>
          hnone pre operation post hsplit hrevokes.failsWithRollback
      have hpending := hquiet.invariant (fun connection _
        (h : connection.m_rollbackPending = false) hop => step_not_pending h hop) hfresh
      have hlast := hguarded performed
      rw [hlast.unlock_permanent, if_neg (by simp [hpending])]
      cases htransaction : (Runs.run step connection performed).database.transaction with
      | none => simpa [(hlast.outside htransaction).1] using hnumber
      | some pending => simpa [(hlast.inside pending htransaction).2.2] using hnumber

/-- A statement behind the intermediate commit survives the failure that should revoke it, and so does
any statement in front of a failure that is thrown. -/
theorem not_atomic_after_commit :
    (¬ ∀ commitPending rollbackPending maxCommitPending operations,
      Atomic (locked commitPending rollbackPending maxCommitPending) operations) ∧
    ¬ Atomic (locked 0 false 0)
      [.execute .Ignore .succeeds, .execute .Rollback (.throws .DatabaseException)] := by
  constructor
  · intro h
    have hrollback := (h 0 false 0 [.commit, .execute .Ignore .succeeds, .execute .Rollback .fails])
      |>.rollback [.commit, .execute .Ignore .succeeds] (.execute .Rollback .fails) [] rfl
        ⟨rfl, .fails, rfl, by simp⟩ List.not_mem_nil
    exact hrollback 0 (by decide) (by decide)
  · intro h
    have hrollback := h.rollback [.execute .Ignore .succeeds]
      (.execute .Rollback (.throws .DatabaseException)) [] rfl ⟨rfl, _, rfl, by simp⟩
      List.not_mem_nil
    exact hrollback 0 (by decide) (by decide)

end Coffee.Dbms
