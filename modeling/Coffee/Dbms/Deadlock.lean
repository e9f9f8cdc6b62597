import Coffee.Dbms.Guards

/-! # Deadlocks of guards

A program is known here by which guards it nests in which. Whether a thread of such programs can wait
for ever is read off the nesting alone: the guard of a connection around the one of a statement does
not rule it out, an order of the shared statements does.
-/

namespace Coffee.Dbms

open Coffee.Library

variable {ι γ δ σ : Type}

/-- What may be guarded inside what. The guard of a statement needs one of a connection, and only the
transaction of a connection fails to begin. -/
structure Usage (γ δ : Type) extends Locks.Rules (Mutex γ δ) where
  guarded : ∀ held statement, allows held (.statement statement) → ∃ c, .connection c ∈ held
  loses_connection : ∀ statement, ¬ loses (.statement statement)

namespace Guards

/-- A database that is available and begins its transactions. -/
def willing : Backend σ where
  isAvailable _ := true
  recover database := (true, database)
  do_beginTransaction database := (.ok true, database)
  do_commit database := (.ok (), database)
  do_rollback database := database
  write database := database

def refusing : Backend σ :=
  { willing with do_beginTransaction := fun database => (.error .DatabaseException, database) }

theorem begins_willing (connection : Connection σ) : connection.Begins willing :=
  fun _ => ⟨true, rfl⟩

theorem not_begins_refusing {connection : Connection σ} (h : connection.m_lockingCounter = 0) :
    ¬ connection.Begins refusing := by
  intro hbegins
  obtain ⟨began, hbegan⟩ := hbegins h
  cases hbegan

variable [DecidableEq ι] [DecidableEq γ] [DecidableEq δ] {s : Guards ι γ δ σ} {i : ι}
  {r : Locks.Rules (Mutex γ δ)}

/-- The thread waits in a constructor, and goes on waiting in whatever run comes. -/
def Stuck (r : Locks.Rules (Mutex γ δ)) (s : Guards ι γ δ σ) (i : ι) : Prop :=
  ∀ events, Runs.Meets step (Follows r) s events →
    ((Runs.run step s events).threads i).constructing ≠ none

omit [DecidableEq ι] [DecidableEq γ] [DecidableEq δ] in
theorem wanted_eq_none_iff : s.locks.wanted i = none ↔ (s.threads i).constructing = none :=
  Option.map_eq_none_iff

omit [DecidableEq ι] [DecidableEq γ] [DecidableEq δ] in
theorem exists_constructing {m : Mutex γ δ} (h : s.locks.wanted i = some m) :
    ∃ construction, (s.threads i).constructing = some construction ∧ construction.mutex = m :=
  Option.map_eq_some_iff.mp h

theorem locks_ask {construction : Construction γ δ} {backend : Backend σ}
    (h : s.Enabled (.construct i construction backend)) :
    (s.step (.construct i construction backend)).locks =
      s.locks.put i (s.held i) (some construction.mutex) := by
  cases s.step_moves (.construct i construction backend) with
  | stays hidle => exact absurd h hidle
  | asks hrest hlocked hheld hwanted =>
    rw [locks, locks, hlocked, hheld, hwanted, Locks.ofLocked_ask]

theorem locks_take {construction : Construction γ δ}
    (hwaits : (s.threads i).constructing = some construction)
    (hfree : s.locked construction.mutex = false) :
    (s.step (.acquire i willing)).locks =
      s.locks.put i (construction.mutex :: s.held i) none := by
  cases s.step_moves (.acquire i willing) with
  | stays hidle => exact absurd ⟨_, hwaits, hfree⟩ hidle
  | loses _ _ hthrows => exact absurd (begins_willing _) hthrows
  | takes hother hunlocked _ hlocked hheld hwanted =>
    cases hwaits.symm.trans hother
    rw [locks, locks, hlocked, hheld, hwanted, Locks.ofLocked_take hunlocked]

theorem locks_lose (htaken : s.Taken) {c : γ} (hcounter : Counted (s.connections c))
    (hwaits : (s.threads i).constructing = some (.GuardConnection c))
    (hfree : s.locked (.connection c) = false) :
    (s.step (.acquire i refusing)).locks =
      (s.locks.put i (s.held i) none).lose (.connection c) := by
  have hmutex : (s.connections c).m_mutex = false := hfree
  cases s.step_moves (.acquire i refusing) with
  | stays hidle => exact absurd ⟨_, hwaits, hfree⟩ hidle
  | takes hother _ hbegins =>
    cases hwaits.symm.trans hother
    refine absurd (hbegins c rfl) (not_begins_refusing ?_)
    rw [hcounter, hmutex]
    rfl
  | loses hother hunlocked _ hlocked hheld hwanted =>
    cases hwaits.symm.trans hother
    rw [locks, locks, hlocked, hheld, hwanted, Locks.ofLocked_lose htaken hunlocked]

theorem locks_release {m : Mutex γ δ} {rest : List (Mutex γ δ)}
    (hrest : (s.threads i).constructing = none) (hheld : s.held i = m :: rest) :
    (s.step (.destroy i willing)).locks = s.locks.put i rest none := by
  have hguards : (s.threads i).guards ≠ [] := by
    intro hnil
    rw [held, hnil] at hheld
    cases hheld
  cases s.step_moves (.destroy i willing) with
  | stays hidle => exact absurd ⟨hrest, hguards⟩ hidle
  | releases _ hother hlocked hafter hwanted =>
    cases hheld.symm.trans hother
    rw [locks, locks, hlocked, hafter, hwanted, Locks.ofLocked_release hother]

/-- Every step of the locks is one of the guards, before some database. -/
theorem exists_event (usage : Usage γ δ) (h : s.Consistent) {x : Locks ι (Mutex γ δ)}
    (hstep : Locks.Step usage.toRules s.locks x) :
    ∃ event, s.Follows usage.toRules event ∧ (s.step event).locks = x := by
  have hfree : ∀ {m}, s.locks.Free m → s.locked m = false :=
    fun hm => (Locks.free_ofLocked h.taken).mp hm
  cases hstep with
  | @ask t m hrest hallows =>
    rw [wanted_eq_none_iff] at hrest
    cases m with
    | connection c => exact ⟨.construct t (.GuardConnection c) willing, hallows, locks_ask ⟨hrest, rfl⟩⟩
    | statement statement =>
      obtain ⟨c, hc⟩ := usage.guarded _ _ hallows
      exact ⟨.construct t (.GuardStatement c statement) willing, hallows,
        locks_ask ⟨hrest, hc, rfl⟩⟩
  | @take t m hwanted hunheld =>
    obtain ⟨construction, hwaits, rfl⟩ := exists_constructing hwanted
    refine ⟨.acquire t willing, fun c _ _ => .inl (begins_willing _), ?_⟩
    exact locks_take hwaits (hfree hunheld)
  | @lose t m hwanted hunheld hloses =>
    obtain ⟨construction, hwaits, rfl⟩ := exists_constructing hwanted
    cases construction with
    | GuardStatement c statement => exact absurd hloses (usage.loses_connection statement)
    | GuardConnection c =>
      refine ⟨.acquire t refusing, fun c' hother _ => .inr ?_,
        locks_lose h.taken (h.counter c) hwaits (hfree hunheld)⟩
      cases hwaits.symm.trans hother
      exact hloses
  | @release t m rest hrest hheld =>
    rw [wanted_eq_none_iff] at hrest
    exact ⟨.destroy t willing, trivial, locks_release hrest hheld⟩

theorem reaches_run (h : s.Consistent) {events : List (Event ι γ δ σ)}
    (hmeets : Runs.Meets step (Follows r) s events) :
    Locks.Reaches r s.locks (Runs.run step s events).locks ∧
      (Runs.run step s events).Consistent := by
  induction events generalizing s with
  | nil => exact ⟨.refl, h⟩
  | cons event events ih =>
    obtain ⟨hrest, hconsistent⟩ := ih (h.step event) hmeets.2
    exact ⟨(locks_step h.taken hmeets.1).trans hrest, hconsistent⟩

theorem exists_run (usage : Usage γ δ) (h : s.Consistent) {x : Locks ι (Mutex γ δ)}
    (hreaches : Locks.Reaches usage.toRules s.locks x) :
    ∃ events, Runs.Meets step (Follows usage.toRules) s events ∧
      (Runs.run step s events).locks = x := by
  induction hreaches with
  | refl => exact ⟨[], trivial, rfl⟩
  | tail _ hlast ih =>
    obtain ⟨events, hmeets, rfl⟩ := ih
    obtain ⟨event, hfollows, hlocks⟩ := exists_event usage (reaches_run h hmeets).2 hlast
    refine ⟨events ++ [event], Runs.meets_append.mpr ⟨hmeets, hfollows, trivial⟩, ?_⟩
    rw [Runs.run_concat]
    exact hlocks

theorem stuck_iff (usage : Usage γ δ) (h : s.Consistent) :
    s.Stuck usage.toRules i ↔ Locks.Stuck usage.toRules s.locks i := by
  constructor
  · intro hstuck x hreaches
    obtain ⟨events, hmeets, rfl⟩ := exists_run usage h hreaches
    exact fun hrest => hstuck events hmeets (wanted_eq_none_iff.mp hrest)
  · intro hstuck events hmeets hrest
    exact hstuck _ (reaches_run h hmeets).1 (wanted_eq_none_iff.mpr hrest)

theorem exists_stuck_iff_locks (usage : Usage γ δ) (database : γ → σ) (maxCommitPending : γ → Int) :
    (∃ events, Runs.Meets step (Follows usage.toRules) (opened database maxCommitPending) events ∧
        ∃ i : ι, (Runs.run step (opened database maxCommitPending) events).Stuck usage.toRules i) ↔
      ∃ x, Locks.Reaches usage.toRules (.idle : Locks ι (Mutex γ δ)) x ∧
        ∃ i, Locks.Stuck usage.toRules x i := by
  have hopened : (opened database maxCommitPending : Guards ι γ δ σ).Consistent :=
    consistent_opened database maxCommitPending
  constructor
  · rintro ⟨events, hmeets, i, hstuck⟩
    obtain ⟨hreaches, hconsistent⟩ := reaches_run hopened hmeets
    rw [locks_opened] at hreaches
    exact ⟨_, hreaches, i, (stuck_iff usage hconsistent).mp hstuck⟩
  · rintro ⟨x, hreaches, i, hstuck⟩
    rw [← locks_opened database maxCommitPending] at hreaches
    obtain ⟨events, hmeets, rfl⟩ := exists_run usage hopened hreaches
    exact ⟨events, hmeets, i, (stuck_iff usage (reaches_run hopened hmeets).2).mpr hstuck⟩

/-- A thread can wait for ever just when some threads can tie a knot: each of them asks for what
another one guards, and no two guard the same. A transaction that does not begin is as bad. -/
theorem deadlock_iff [Fintype ι] (usage : Usage γ δ) (database : γ → σ)
    (maxCommitPending : γ → Int) :
    (∃ events, Runs.Meets step (Follows usage.toRules) (opened database maxCommitPending) events ∧
        ∃ i : ι, (Runs.run step (opened database maxCommitPending) events).Stuck usage.toRules i) ↔
      Nonempty (Locks.Knot ι usage.toRules) ∨
        Nonempty ι ∧ ∃ held c, usage.allows held (.connection c) ∧ usage.loses (.connection c) := by
  rw [exists_stuck_iff_locks, Locks.exists_stuck_iff]
  refine or_congr_right (and_congr_right fun _ => exists_congr fun held => ?_)
  constructor
  · rintro ⟨m, hallows, hloses⟩
    cases m with
    | connection c => exact ⟨c, hallows, hloses⟩
    | statement statement => exact absurd hloses (usage.loses_connection statement)
  · rintro ⟨c, hallows, hloses⟩
    exact ⟨.connection c, hallows, hloses⟩

omit [DecidableEq γ] [DecidableEq δ] in
/-- The guards of connections alone rule nothing out: two connections and two statements that are
nested both ways suffice. -/
theorem knot_of_crossed (usage : Usage γ δ) {i j : ι} (hij : i ≠ j) {c d : γ} {a b : δ} (hcd : c ≠ d)
    (hab : a ≠ b) (hfirst : usage.allows [.statement a, .connection c] (.statement b))
    (hsecond : usage.allows [.statement b, .connection d] (.statement a)) :
    Nonempty (Locks.Knot ι usage.toRules) := by
  refine ⟨{
    members := {i, j}
    held := fun t => if t = i then [.statement a, .connection c] else [.statement b, .connection d]
    wanted := fun t => if t = i then .statement b else .statement a
    nonempty := ⟨i, by simp⟩
    allowed := fun t ht => ?_
    apart := fun t ht u hu hne => ?_
    closed := fun t ht => ?_ }⟩
  · by_cases hti : t = i
    · simpa [hti] using hfirst
    · simpa [hti] using hsecond
  · rcases Finset.mem_insert.mp ht with rfl | ht <;> rcases Finset.mem_insert.mp hu with rfl | hu
    · exact absurd rfl hne
    · simp [Ne.symm hne, hcd.symm, hab.symm]
    · simp [hne, hcd, hab]
    · rw [Finset.mem_singleton] at ht hu
      exact absurd (ht.trans hu.symm) hne
  · by_cases hti : t = i
    · exact ⟨j, by simp, by simp [hti, hij.symm]⟩
    · exact ⟨i, by simp, by simp [hti]⟩

/-- A statement with an owner is used with that connection only. -/
def gate (owner : δ → Option γ) : Mutex γ δ → Option (Mutex γ δ)
  | .connection _ => none
  | .statement statement => (owner statement).map .connection

/-- Nobody waits for ever where every statement is used with one connection only, and there once at
a time, or has its place in an order of the connections and of the statements that are shared. -/
theorem gets_on_of_ordered [Fintype ι] (usage : Usage γ δ) (owner : δ → Option γ)
    (rank : Mutex γ δ → Nat) (hordered : usage.toRules.Ordered (gate owner) rank)
    (hbegins : ∀ c, ¬ usage.loses (.connection c)) (database : γ → σ) (maxCommitPending : γ → Int)
    (events : List (Event ι γ δ σ))
    (hmeets : Runs.Meets step (Follows usage.toRules) (opened database maxCommitPending) events)
    (i : ι) : ∃ later,
      Runs.Meets step (Follows usage.toRules) (opened database maxCommitPending) (events ++ later) ∧
        ((Runs.run step (opened database maxCommitPending)
          (events ++ later)).threads i).constructing = none := by
  by_contra hnever
  have hstuck : (Runs.run step (opened database maxCommitPending) events).Stuck usage.toRules i := by
    intro later hlater hrest
    refine hnever ⟨later, Runs.meets_append.mpr ⟨hmeets, hlater⟩, ?_⟩
    rw [Runs.run_append]
    exact hrest
  have hlocks := (exists_stuck_iff_locks usage database maxCommitPending).mp
    ⟨events, hmeets, i, hstuck⟩
  rcases Locks.exists_stuck_iff.mp hlocks with hknot | ⟨-, held, m, hallows, hloses⟩
  · have hempty : IsEmpty (Locks.Knot ι usage.toRules) := hordered.isEmpty_knot
    exact not_nonempty_iff.mpr hempty hknot
  · cases m with
    | connection c => exact hbegins c hloses
    | statement statement => exact usage.loses_connection statement hloses

/-- One connection at a time, and one statement inside it. -/
def single (γ δ : Type) : Usage γ δ where
  allows held m :=
    held = [] ∧ (∃ c, m = .connection c) ∨
      ∃ c statement, held = [.connection c] ∧ m = .statement statement
  loses _ := False
  allows_tail := by
    rintro held m want (⟨h, -⟩ | ⟨c, statement, h, -⟩)
    · cases h
    · cases h
      exact .inl ⟨rfl, c, rfl⟩
  guarded := by
    rintro held statement (⟨-, c, h⟩ | ⟨c, other, rfl, -⟩)
    · cases h
    · exact ⟨c, List.mem_singleton_self _⟩
  loses_connection _ h := h

theorem gets_on_of_ordered_single : ∃ later,
    Runs.Meets step (Follows (single Unit Unit).toRules)
        (opened (fun _ => ()) fun _ => 0 : Guards (Fin 2) Unit Unit Unit)
        ([.construct 0 (.GuardConnection ()) willing, .acquire 0 willing,
          .construct 1 (.GuardConnection ()) willing] ++ later) ∧
      ((Runs.run step (opened (fun _ => ()) fun _ => 0 : Guards (Fin 2) Unit Unit Unit)
        ([.construct 0 (.GuardConnection ()) willing, .acquire 0 willing,
          .construct 1 (.GuardConnection ()) willing] ++ later)).threads 1).constructing = none := by
  refine gets_on_of_ordered (single Unit Unit) (fun _ => none)
    (fun m => match m with | .connection _ => 0 | .statement _ => 1) ⟨?_, ?_⟩ (fun _ h => h)
    (fun _ => ()) (fun _ => 0) _ ?_ 1
  · rintro held m g - hgate
    cases m <;> cases hgate
  · rintro held m (⟨rfl, -⟩ | ⟨c, statement, rfl, rfl⟩) - m' hm' -
    · cases hm'
    · cases List.mem_singleton.mp hm'
      exact Nat.zero_lt_one
  · exact ⟨.inl ⟨rfl, (), rfl⟩, fun _ _ _ => .inl (begins_willing _), .inl ⟨rfl, (), rfl⟩, trivial⟩

end Guards

end Coffee.Dbms
