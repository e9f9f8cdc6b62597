import Coffee.Dbms.LockSafety

/-! # Batch commits

A connection with a maximum of pending commits is meant to commit behind every so many statements
of a guarded section. Its counter also tells that a transaction is open: it starts at one where
`do_beginTransaction` returns true, and the first batch of that section is one statement short.
-/

namespace Coffee.Dbms

open Coffee.Library

variable {σ : Type}

/-- The database with the number of commits it has made. -/
def Backend.counted (backend : Backend σ) : Backend (σ × Nat) where
  isAvailable database := backend.isAvailable database.1
  recover database := ((backend.recover database.1).1, (backend.recover database.1).2, database.2)
  do_beginTransaction database :=
    ((backend.do_beginTransaction database.1).1, (backend.do_beginTransaction database.1).2,
      database.2)
  do_commit database :=
    match backend.do_commit database.1 with
    | (.ok _, after) => (.ok (), after, database.2 + 1)
    | (.error ex, after) => (.error ex, after, database.2)
  do_rollback database := (backend.do_rollback database.1, database.2)
  write database := (backend.write database.1, database.2)

/-- A commit that the connection asks for now is made. -/
def Backend.Accepts (backend : Backend σ) (database : σ) : Prop :=
  backend.isAvailable database = true ∧ (backend.do_commit database).1 = .ok ()

def unthrown {α τ : Type} : Except ConnectionException α × τ → Option τ
  | (.ok _, s) => some s
  | (.error _, _) => none

variable (backend : Backend σ)

def lock? (connection : Connection (σ × Nat)) : Option (Connection (σ × Nat)) :=
  unthrown (connection.lock backend.counted)

def execute? (connection : Connection (σ × Nat)) (actionOnError : ActionOnError) :
    Option (Connection (σ × Nat)) :=
  unthrown (connection.execute backend.counted ⟨true, actionOnError⟩ (.ok .successful))

/-- One guarded section of successful statements. -/
def section? (connection : Connection (σ × Nat)) (statements : List ActionOnError) :
    Option (Connection (σ × Nat)) := do
  let locked ← lock? backend connection
  let ended ← Runs.run? (execute? backend) locked statements
  return ended.unlock backend.counted

/-- No statement of the section throws, every `n`-th of them is followed by a commit and no other is,
and the unlock commits what is left over. -/
def ExactBatches (n : Nat) (connection : Connection (σ × Nat)) (statements : List ActionOnError) :
    Prop :=
  ∀ locked ∈ lock? backend connection,
    ∃ ended ∈ Runs.run? (execute? backend) locked statements,
      (∀ performed, performed <+: statements →
        ∀ after ∈ Runs.run? (execute? backend) locked performed,
          after.database.2 = locked.database.2 + performed.length / n) ∧
      (¬ n ∣ statements.length →
        (ended.unlock backend.counted).database.2 = ended.database.2 + 1)

def Backend.begins (backend : Backend σ) (database : σ) : Bool :=
  match (backend.do_beginTransaction database).1 with
  | .ok began => began
  | .error _ => false

/-- What `do_beginTransaction` returns to the lock of a section. -/
def begins (connection : Connection (σ × Nat)) : Bool :=
  backend.begins (connection.makeAvailable backend.counted).2.database.1

/-- A section that begins a transaction ends before its first batch is full, unless each statement
is a batch of its own, and the database accepts a commit behind each full batch and, where statements
are left over, at the end. -/
structure FirstBatchOpen (n : Nat) (connection locked : Connection (σ × Nat))
    (statements : List ActionOnError) : Prop where
  first : begins backend connection = true → n = 1 ∨ statements.length + 1 < n
  full : ∀ pre actionOnError post, statements = pre ++ actionOnError :: post → n ∣ pre.length + 1 →
    ∀ before ∈ Runs.run? (execute? backend) locked pre,
      backend.Accepts (backend.write before.database.1)
  rest : ¬ n ∣ statements.length → ∀ ended ∈ Runs.run? (execute? backend) locked statements,
    backend.Accepts ended.database.1

structure Unguarded (n : Nat) (connection : Connection (σ × Nat)) : Prop where
  maximum : connection.m_maxCommitPending = n
  counter : connection.m_lockingCounter = 0

/-- The connection inside a section, with `pending` on its counter and `commits` so far. -/
structure Counting (n pending commits : Nat) (connection : Connection (σ × Nat)) : Prop where
  maximum : connection.m_maxCommitPending = n
  counter : connection.m_lockingCounter = 1
  rollback : connection.m_rollbackPending = false
  pending : connection.m_commitPending = pending
  commits : connection.database.2 = commits

variable {backend} {n pending commits : Nat} {connection : Connection (σ × Nat)}

theorem mem_unthrown {α τ : Type} {result : Except ConnectionException α × τ} {s : τ} :
    s ∈ unthrown result ↔ (∃ value, result.1 = .ok value) ∧ result.2 = s := by
  obtain ⟨value, after⟩ := result
  cases value with
  | ok value => simp [unthrown]
  | error ex => simp [unthrown]

theorem Unguarded.acquire (h : Unguarded n connection) {acquired : Connection (σ × Nat)}
    (hacquired : acquired ∈ unthrown (connection.acquire backend.counted)) :
    Counting n (if backend.begins connection.database.1 then 1 else 0) connection.database.2
      acquired := by
  obtain ⟨⟨value, hvalue⟩, rfl⟩ := mem_unthrown.mp hacquired
  revert hvalue
  unfold Backend.begins Connection.acquire
  cases hbegin : backend.do_beginTransaction connection.database.1 with
  | mk result database =>
    cases result with
    | error ex => simp [Backend.counted, hbegin, h.counter]
    | ok began =>
      intro hvalue
      cases began with
      | false => constructor <;> simp [Backend.counted, hbegin, h.counter, h.maximum]
      | true => constructor <;> simp [Backend.counted, hbegin, h.counter, h.maximum]

theorem Unguarded.makeAvailable (h : Unguarded n connection) (backend : Backend σ) :
    Unguarded n (connection.makeAvailable backend.counted).2 ∧
      (connection.makeAvailable backend.counted).2.database.2 = connection.database.2 := by
  refine ⟨⟨h.maximum, h.counter⟩, ?_⟩
  cases havailable : backend.isAvailable connection.database.1 with
  | false => simp [Connection.makeAvailable, Backend.counted, havailable]
  | true => simp [Connection.makeAvailable, Backend.counted, havailable]

theorem Unguarded.lock (h : Unguarded n connection) {locked : Connection (σ × Nat)}
    (hlocked : locked ∈ lock? backend connection) :
    Counting n (if begins backend connection then 1 else 0) connection.database.2 locked := by
  obtain ⟨havailable, hcommits⟩ := h.makeAvailable backend
  rw [lock?, Connection.lock_eq] at hlocked
  rw [← hcommits]
  split at hlocked
  · exact havailable.acquire hlocked
  · cases hlocked

theorem Backend.counted_do_commit (backend : Backend σ) (database : σ × Nat) :
    backend.counted.do_commit database = ((backend.do_commit database.1).1,
      (backend.do_commit database.1).2,
      if (backend.do_commit database.1).1 = .ok () then database.2 + 1 else database.2) := by
  simp only [Backend.counted]
  cases backend.do_commit database.1 with
  | mk result after => cases result <;> simp

theorem commit_counted (backend : Backend σ) (connection : Connection (σ × Nat)) :
    (backend.Accepts connection.database.1 ∧ connection.commit backend.counted =
      (.ok (), { connection with
        database := ((backend.do_commit connection.database.1).2, connection.database.2 + 1)
        m_commitPending := 0
        m_rollbackPending := false })) ∨
      (¬ backend.Accepts connection.database.1 ∧ ∃ ex after,
        connection.commit backend.counted =
          (.error ex, { connection with database := (after, connection.database.2) })) := by
  unfold Connection.commit Backend.Accepts
  rw [Backend.counted_do_commit]
  have havailable : backend.counted.isAvailable connection.database =
    backend.isAvailable connection.database.1 := rfl
  rw [havailable]
  cases backend.isAvailable connection.database.1 with
  | false =>
    exact Or.inr ⟨by simp, .RuntimeException, connection.database.1, rfl⟩
  | true =>
    cases hcommit : (backend.do_commit connection.database.1).1 with
    | error ex => exact Or.inr ⟨by simp, ex, _, rfl⟩
    | ok _ => exact Or.inl ⟨⟨rfl, rfl⟩, rfl⟩

/-- A statement throws just when it fills a batch that the database does not accept. -/
theorem Counting.execute (h : Counting n pending commits connection) (hn : 0 < n)
    (actionOnError : ActionOnError) :
    ((¬ pending + 1 < n → backend.Accepts (backend.write connection.database.1)) ∧
      ∃ executed, execute? backend connection actionOnError = some executed ∧
        Counting n (if pending + 1 < n then pending + 1 else 0)
          (if pending + 1 < n then commits else commits + 1) executed) ∨
      (¬ pending + 1 < n ∧ ¬ backend.Accepts (backend.write connection.database.1) ∧
        execute? backend connection actionOnError = none) := by
  obtain ⟨written, hwritten⟩ : ∃ written : Connection (σ × Nat), written = { connection with
      database := backend.counted.write connection.database
      m_commitPending := connection.m_commitPending + 1 } := ⟨_, rfl⟩
  have hreach : written.reachMaxCommitPending = true ↔ ¬ pending + 1 < n := by
    simp only [hwritten, Connection.reachMaxCommitPending, h.maximum, h.pending, Bool.and_eq_true,
      decide_eq_true_eq]
    omega
  have hdatabase : written.database = (backend.write connection.database.1, commits) := by
    rw [hwritten, ← h.commits]
    rfl
  rw [execute?, Connection.execute, if_neg (by simp [h.rollback])]
  dsimp only
  rw [if_neg (by simp), ← hwritten]
  by_cases hopen : pending + 1 < n
  · refine Or.inl ⟨fun hfull => absurd hopen hfull, written, ?_, ?_⟩
    · rw [if_neg fun hfull => hreach.mp hfull hopen]
      rfl
    · rw [if_pos hopen, if_pos hopen]
      exact ⟨by rw [hwritten]; exact h.maximum, by rw [hwritten]; exact h.counter,
        by rw [hwritten]; exact h.rollback, by simp [hwritten, h.pending], by rw [hdatabase]⟩
  · rw [if_pos (hreach.mpr hopen), if_neg hopen, if_neg hopen]
    have hcommit := commit_counted backend written
    rw [hdatabase] at hcommit
    rcases hcommit with ⟨haccepts, hcommit⟩ | ⟨hrefuses, ex, after, hcommit⟩
    · refine Or.inl ⟨fun _ => haccepts, _, by rw [hcommit]; rfl, ?_⟩
      exact ⟨by rw [hwritten]; exact h.maximum, by rw [hwritten]; exact h.counter, rfl, rfl, rfl⟩
    · exact Or.inr ⟨hopen, hrefuses, by rw [hcommit]; rfl⟩

theorem Counting.of_execute (h : Counting n pending commits connection) (hn : 0 < n)
    {actionOnError : ActionOnError} {executed : Connection (σ × Nat)}
    (hexecuted : executed ∈ execute? backend connection actionOnError) :
    (¬ pending + 1 < n → backend.Accepts (backend.write connection.database.1)) ∧
      Counting n (if pending + 1 < n then pending + 1 else 0)
        (if pending + 1 < n then commits else commits + 1) executed := by
  rcases h.execute hn actionOnError with ⟨haccepts, executed', hexecuted', hcounting⟩ | ⟨-, -, hnone⟩
  · rw [Option.mem_unique hexecuted hexecuted']
    exact ⟨haccepts, hcounting⟩
  · rw [hnone] at hexecuted
    cases hexecuted

theorem Counting.run (h : Counting n pending commits connection) (hpending : pending < n)
    {statements : List ActionOnError} {ended : Connection (σ × Nat)}
    (hended : ended ∈ Runs.run? (execute? backend) connection statements) :
    Counting n ((pending + statements.length) % n) (commits + (pending + statements.length) / n)
      ended := by
  induction statements generalizing connection pending commits with
  | nil =>
    cases hended
    simpa [Nat.mod_eq_of_lt hpending, Nat.div_eq_of_lt hpending] using h
  | cons actionOnError statements ih =>
    obtain ⟨executed, hexecuted, hrest⟩ := Option.bind_eq_some_iff.mp hended
    have hstep := (h.of_execute (by omega) hexecuted).2
    rw [List.length_cons]
    split at hstep
    · rename_i hopen
      have hrun := ih hstep hopen hrest
      rwa [Nat.add_right_comm, Nat.add_assoc] at hrun
    · rename_i hfull
      have hrun := ih hstep (by omega) hrest
      have hsize : pending + (statements.length + 1) = statements.length + n := by omega
      rwa [hsize, Nat.add_mod_right, Nat.add_div_right _ (by omega), Nat.add_comm _ 1,
        ← Nat.add_assoc, ← Nat.zero_add statements.length]

theorem Counting.unlock (h : Counting n pending commits connection) (backend : Backend σ) :
    Unguarded n (connection.unlock backend.counted) ∧
      ((connection.unlock backend.counted).database.2 = commits + 1 ↔
        0 < pending ∧ backend.Accepts connection.database.1) := by
  have hfree : (connection.unlock backend.counted).m_lockingCounter = 0 :=
    (Connection.unlock_free backend.counted h.counter).2
  let released : Connection (σ × Nat) := { connection with m_lockingCounter := 0 }
  have heq : connection.unlock backend.counted =
      { (if 0 < pending then (released.commit backend.counted).2 else released) with
        m_mutex := false } := by
    simp [Connection.unlock, h.counter, h.rollback, h.pending, released]
  have hcommits := h.commits
  by_cases hpending : 0 < pending
  · rw [if_pos hpending] at heq
    rcases commit_counted backend released with ⟨haccepts, hcommit⟩ | ⟨hrefuses, ex, after, hcommit⟩
    · rw [hcommit] at heq
      refine ⟨⟨by rw [heq]; exact h.maximum, hfree⟩, iff_of_true ?_ ⟨hpending, haccepts⟩⟩
      rw [heq, ← hcommits]
    · rw [hcommit] at heq
      refine ⟨⟨by rw [heq]; exact h.maximum, hfree⟩, iff_of_false ?_ fun h => hrefuses h.2⟩
      rw [heq, ← hcommits]
      exact Nat.ne_of_lt (Nat.lt_succ_self _)
  · rw [if_neg hpending] at heq
    refine ⟨⟨by rw [heq]; exact h.maximum, hfree⟩, iff_of_false ?_ fun h => hpending h.1⟩
    rw [heq, ← hcommits]
    exact Nat.ne_of_lt (Nat.lt_succ_self _)

/-- Where the counter starts at one, each statement is still a batch of its own when one may be
pending. -/
theorem Counting.single (h : Counting 1 pending commits connection)
    {statements : List ActionOnError} {ended : Connection (σ × Nat)}
    (hended : ended ∈ Runs.run? (execute? backend) connection statements) :
    ended.database.2 = commits + statements.length := by
  cases statements with
  | nil =>
    cases hended
    exact h.commits
  | cons actionOnError statements =>
    obtain ⟨executed, hexecuted, hrest⟩ := Option.bind_eq_some_iff.mp hended
    have hstep := (h.of_execute Nat.one_pos hexecuted).2
    rw [if_neg (by omega), if_neg (by omega)] at hstep
    have hcommits := (hstep.run Nat.one_pos hrest).commits
    rw [Nat.div_one] at hcommits
    rw [hcommits, List.length_cons]
    omega

theorem Counting.exists_run (h : Counting n pending commits connection) (hn : 0 < n)
    {statements : List ActionOnError} {ended : Connection (σ × Nat)}
    (hended : ended ∈ Runs.run? (execute? backend) connection statements) :
    ∃ pending commits, Counting n pending commits ended := by
  have hstep : ∀ (connection : Connection (σ × Nat)) actionOnError executed,
      (∃ pending commits, Counting n pending commits connection) →
        executed ∈ execute? backend connection actionOnError →
          ∃ pending commits, Counting n pending commits executed :=
    fun _ _ _ ⟨_, _, h⟩ hexecuted => ⟨_, _, (h.of_execute hn hexecuted).2⟩
  exact Runs.run?_invariant hstep ⟨_, _, h⟩ hended

/-- Behind a front of a section, as long as its first batch is not one statement short. -/
theorem Counting.behind (h : Counting n pending commits connection) (hn : 0 < n) {size : Nat}
    (hopen : pending = 0 ∨ n = 1 ∨ pending + size < n) {pre : List ActionOnError}
    (hsize : pre.length ≤ size) {before : Connection (σ × Nat)}
    (hbefore : before ∈ Runs.run? (execute? backend) connection pre) :
    ∃ left, Counting n left (commits + pre.length / n) before ∧
      (pre.length < size → (n ∣ pre.length + 1 ↔ ¬ left + 1 < n)) ∧
      (¬ n ∣ pre.length → 0 < left) := by
  rcases hopen with rfl | rfl | hshort
  · have hrun := h.run hn hbefore
    rw [Nat.zero_add] at hrun
    refine ⟨_, hrun, fun _ => ?_, fun hrest => Nat.pos_of_ne_zero fun hzero =>
      hrest (Nat.dvd_of_mod_eq_zero hzero)⟩
    have hmod := Nat.mod_lt pre.length hn
    have hsplit : pre.length + 1 = n * (pre.length / n) + (pre.length % n + 1) := by
      rw [← Nat.add_assoc, Nat.div_add_mod]
    rw [hsplit, Nat.dvd_add_right (Nat.dvd_mul_right n _)]
    constructor
    · intro hdvd
      have := Nat.le_of_dvd (Nat.succ_pos _) hdvd
      omega
    · intro hfull
      have hsame : pre.length % n + 1 = n := by omega
      exact ⟨1, by omega⟩
  · obtain ⟨left, commits', hcounting⟩ := h.exists_run hn hbefore
    have hcommits := hcounting.commits
    rw [h.single hbefore] at hcommits
    subst hcommits
    rw [Nat.div_one]
    exact ⟨left, hcounting, fun _ => by simp, fun hrest => absurd (Nat.one_dvd _) hrest⟩
  · have hrun := h.run (by omega) hbefore
    rw [Nat.mod_eq_of_lt (by omega), Nat.div_eq_of_lt (by omega)] at hrun
    rw [Nat.div_eq_of_lt (by omega)]
    refine ⟨_, hrun, fun hless => ?_, fun hrest => ?_⟩
    · refine iff_of_false (fun hdvd => ?_) (by omega)
      have := Nat.le_of_dvd (by omega) hdvd
      omega
    · have hne : pre.length ≠ 0 := fun hzero => hrest (hzero ▸ Nat.dvd_zero n)
      omega

theorem Unguarded.first (h : Unguarded n connection) (hn : 0 < n)
    {statements : List ActionOnError} (hexact : ExactBatches backend n connection statements)
    {locked : Connection (σ × Nat)} (hlocked : locked ∈ lock? backend connection)
    (hbegins : begins backend connection = true) : n = 1 ∨ statements.length + 1 < n := by
  obtain ⟨ended, hended, hspec, -⟩ := hexact locked hlocked
  by_contra hshort
  have hcounting := h.lock hlocked
  rw [if_pos hbegins] at hcounting
  -- one statement less than a batch fills it
  have hsplit : statements = statements.take (n - 1) ++ statements.drop (n - 1) :=
    (List.take_append_drop _ _).symm
  rw [hsplit, Runs.run?_append] at hended
  obtain ⟨after, hafter, -⟩ := Option.bind_eq_some_iff.mp hended
  have hspec := hspec _ (List.take_prefix _ _) after hafter
  have hcode := (hcounting.run (by omega) hafter).commits
  rw [List.length_take_of_le (by omega)] at hspec hcode
  rw [Nat.div_eq_of_lt (by omega), hcounting.commits] at hspec
  rw [Nat.add_sub_cancel' hn, Nat.div_self hn] at hcode
  omega

theorem Unguarded.opens (h : Unguarded n connection) {statements : List ActionOnError}
    {locked : Connection (σ × Nat)} (hlocked : locked ∈ lock? backend connection)
    (hfirst : begins backend connection = true → n = 1 ∨ statements.length + 1 < n) :
    ∃ pending, Counting n pending connection.database.2 locked ∧
      (pending = 0 ∨ n = 1 ∨ pending + statements.length < n) := by
  have hcounting := h.lock hlocked
  cases hbegins : begins backend connection with
  | false =>
    rw [hbegins, if_neg Bool.false_ne_true] at hcounting
    exact ⟨0, hcounting, Or.inl rfl⟩
  | true =>
    rw [hbegins, if_pos rfl] at hcounting
    refine ⟨1, hcounting, Or.inr ?_⟩
    rw [Nat.add_comm 1]
    exact hfirst hbegins

theorem Unguarded.firstBatchOpen (h : Unguarded n connection) (hn : 0 < n)
    {statements : List ActionOnError} (hexact : ExactBatches backend n connection statements)
    {locked : Connection (σ × Nat)} (hlocked : locked ∈ lock? backend connection) :
    FirstBatchOpen backend n connection locked statements := by
  have hfirst := h.first hn hexact hlocked
  obtain ⟨pending, hcounting, hopen⟩ := h.opens hlocked hfirst
  obtain ⟨ended, hended, -, hunlock⟩ := hexact locked hlocked
  refine ⟨hfirst, ?_, fun hrest ended' hended' => ?_⟩
  · rintro pre actionOnError post rfl hfull before hbefore
    obtain ⟨left, hleft, hbatch, -⟩ := hcounting.behind hn hopen
      (List.prefix_append _ _).length_le hbefore
    rw [Runs.run?_append] at hended
    obtain ⟨before', hbefore', hpost⟩ := Option.bind_eq_some_iff.mp hended
    cases Option.mem_unique hbefore hbefore'
    obtain ⟨executed, hexecuted, -⟩ := Option.bind_eq_some_iff.mp hpost
    exact (hleft.of_execute hn hexecuted).1 ((hbatch (by simp)).mp hfull)
  · cases Option.mem_unique hended hended'
    obtain ⟨left, hleft, -, hpositive⟩ := hcounting.behind hn hopen (Nat.le_refl _) hended
    have hmade := hunlock hrest
    rw [hleft.commits] at hmade
    exact ((hleft.unlock backend).2.mp hmade).2

theorem Unguarded.exactBatches (h : Unguarded n connection) (hn : 0 < n)
    {statements : List ActionOnError} (hopens : ∀ locked ∈ lock? backend connection,
      FirstBatchOpen backend n connection locked statements) :
    ExactBatches backend n connection statements := by
  intro locked hlocked
  have hfits := hopens locked hlocked
  obtain ⟨pending, hcounting, hopen⟩ := h.opens hlocked hfits.first
  obtain ⟨ended, hended⟩ : ∃ ended, ended ∈ Runs.run? (execute? backend) locked statements := by
    refine Runs.exists_run? fun pre actionOnError post before hsplit hbefore => ?_
    have hsize : pre.length < statements.length := by
      rw [hsplit, List.length_append, List.length_cons]
      omega
    obtain ⟨left, hleft, hbatch, -⟩ := hcounting.behind hn hopen (Nat.le_of_lt hsize) hbefore
    rcases hleft.execute hn actionOnError with ⟨-, executed, hexecuted, -⟩ | ⟨hfull, hrefuses, -⟩
    · exact ⟨executed, hexecuted⟩
    · exact absurd (hfits.full pre actionOnError post hsplit ((hbatch hsize).mpr hfull) before
        hbefore) hrefuses
  refine ⟨ended, hended, fun performed hperformed after hafter => ?_, fun hrest => ?_⟩
  · obtain ⟨left, hleft, -⟩ := hcounting.behind hn hopen hperformed.length_le hafter
    rw [hleft.commits, hcounting.commits]
  · obtain ⟨left, hleft, -, hpositive⟩ := hcounting.behind hn hopen (Nat.le_refl _) hended
    rw [hleft.commits]
    exact (hleft.unlock backend).2.mpr ⟨hpositive hrest, hfits.rest hrest ended hended⟩

theorem Unguarded.section (h : Unguarded n connection) (hn : 0 < n)
    {statements : List ActionOnError} {ended : Connection (σ × Nat)}
    (hended : ended ∈ section? backend connection statements) : Unguarded n ended := by
  obtain ⟨locked, hlocked, hrest⟩ := Option.bind_eq_some_iff.mp hended
  obtain ⟨executed, hexecuted, hunlock⟩ := Option.bind_eq_some_iff.mp hrest
  obtain ⟨pending, commits, hcounting⟩ := (h.lock hlocked).exists_run hn hexecuted
  cases hunlock
  exact (hcounting.unlock backend).1

/-- The batches of a run of guarded sections are exact just when each section that begins a
transaction ends in front of the first commit, or every statement is committed for itself, and the
database accepts each commit that is due. -/
theorem exactBatches_iff_firstBatchOpen (backend : Backend σ) (n : Nat) (hn : 0 < n)
    (connection : Connection (σ × Nat)) (hfree : connection.m_lockingCounter = 0)
    (sections : List (List ActionOnError)) :
    Runs.Meets? (section? backend) (ExactBatches backend n) (connection.setMaxCommitPending n)
        sections ↔
      Runs.Meets? (section? backend) (fun connection statements =>
          ∀ locked ∈ lock? backend connection,
            FirstBatchOpen backend n connection locked statements)
        (connection.setMaxCommitPending n) sections := by
  have hunguarded : Unguarded n (connection.setMaxCommitPending n) := ⟨rfl, hfree⟩
  have hstep : ∀ (connection : Connection (σ × Nat)) statements ended, Unguarded n connection →
      ended ∈ section? backend connection statements → Unguarded n ended :=
    fun _ _ _ h hended => h.section hn hended
  have hok : ∀ (connection : Connection (σ × Nat)) statements, Unguarded n connection →
      (ExactBatches backend n connection statements ↔ ∀ locked ∈ lock? backend connection,
        FirstBatchOpen backend n connection locked statements) :=
    fun _ _ h => ⟨fun hexact _ hlocked => h.firstBatchOpen hn hexact hlocked, h.exactBatches hn⟩
  exact Runs.meets?_congr hstep hok hunguarded sections

def idleSqlite : Connection (Sqlite × Nat) := ⟨0, false, 0, 0, false, ⟨none, [], [], []⟩, 0⟩

/-- On SQLite a batch of two is committed behind the first statement, and the second batch of one is
not committed at all. -/
theorem not_exactBatches :
    (¬ ∀ (n : Nat), 0 < n → ∀ connection : Connection (Sqlite × Nat),
      connection.m_lockingCounter = 0 → ∀ sections : List (List ActionOnError),
        Runs.Meets? (section? sqlite) (ExactBatches sqlite n) (connection.setMaxCommitPending n)
          sections) ∧
    ¬ ExactBatches sqlite 1 (idleSqlite.setMaxCommitPending (1 : Nat)) [.Rollback, .Rollback] := by
  constructor
  · intro h
    have hexact := (h 2 (by decide) idleSqlite rfl [[.Rollback]]).1
    obtain ⟨ended, hended, hfirst, -⟩ := hexact _ rfl
    exact absurd (hfirst [.Rollback] (List.prefix_refl _) _ rfl) (by decide)
  · intro h
    obtain ⟨ended, hended, -⟩ := h _ rfl
    exact absurd (Option.isSome_of_mem hended) (by decide)

theorem exactBatches_sqlite : Runs.Meets? (section? sqlite) (ExactBatches sqlite 3)
    (idleSqlite.setMaxCommitPending (3 : Nat)) [[.Rollback], [.Ignore]] := by
  refine (exactBatches_iff_firstBatchOpen sqlite 3 (by decide) idleSqlite rfl _).mpr ?_
  have hfits : ∀ connection locked : Connection (Sqlite × Nat), ∀ actionOnError,
      (∀ ended ∈ Runs.run? (execute? sqlite) locked [actionOnError],
        sqlite.Accepts ended.database.1) →
      FirstBatchOpen sqlite 3 connection locked [actionOnError] := by
    refine fun connection locked actionOnError hrest =>
      ⟨fun _ => Or.inr (by simp), ?_, fun _ => hrest⟩
    intro pre actionOnError' post hsplit hfull
    have hlength := congrArg List.length hsplit
    simp only [List.length_cons, List.length_nil, List.length_append] at hlength
    omega
  refine ⟨fun locked hlocked => hfits _ _ _ ?_, fun next hnext =>
    ⟨fun locked hlocked => hfits _ _ _ ?_, fun _ _ => trivial⟩⟩
  · cases hlocked
    rintro ended ⟨⟩
    exact ⟨rfl, rfl⟩
  · cases hnext
    cases hlocked
    rintro ended ⟨⟩
    exact ⟨rfl, rfl⟩

end Coffee.Dbms
