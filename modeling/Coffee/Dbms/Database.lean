import Coffee.Basis.Text
import Coffee.Library.Ownership
import Coffee.Library.Runs
import Mathlib.Data.List.Nodup

/-! # The connections of a database

`Database` keeps its connections by name and opens and closes them with the application. A connection
owns the handle of its library, and a guard opens it again where it finds none. The connection forgets
its handle when it is closed, also when the library refuses to close it, as SQLite does while a
statement of the connection is not finalized.
-/

namespace Coffee.Dbms

open Coffee.Basis Coffee.Library Runs Ownership

/-- How `open` of a connection ends: with a handle, or with an exception behind which the handle, if
there is one, is closed, or with the one of `LdapConnection::open` that leaves it where it is. -/
inductive Opening where
  | opened
  | failed (leaves : Bool)
  | unsecured

/-- The handle takes the place of what the connection owns. -/
def Opening.take (opening : Opening) (connection : Nat) (handles : Ownership Nat Nat) :
    Ownership Nat Nat :=
  match opening with
  | .opened | .unsecured => handles.put connection (some handles.acquired.length)
  | .failed leaves =>
    (handles.put connection (if leaves then some handles.acquired.length else none)).release connection

/-- `Connection::close`, and the destructor of a connection. -/
def closeHandle (refuses : Bool) (connection : Nat) (handles : Ownership Nat Nat) : Ownership Nat Nat :=
  if refuses then handles.put connection none else handles.release connection

structure Database where
  isRunning : Bool
  m_connections : List (Bytes × Nat)
  /-- The connections that have been allocated so far are numbered, and own numbered handles. -/
  allocated : Nat
  handles : Ownership Nat Nat

namespace Database

def MaxConnection : Nat := 32

def instantiate : Database := ⟨false, [], 0, ⟨fun _ => none, [], []⟩⟩

/-- `Connection::open`, of `SqliteConnection` and `LdapConnection` alike. -/
def openConnection (connection : Nat) (opening : Opening) (database : Database) :
    Bool × Database :=
  (match opening with | .opened => true | .failed _ | .unsecured => false,
    { database with handles := opening.take connection database.handles })

def closeConnection (refuses : Bool) (connection : Nat) (database : Database) : Database :=
  { database with handles := closeHandle refuses connection database.handles }

/-- The connection, or that it throws. A name ends at its first zero byte. -/
def createConnection (name : Bytes) (opening : Opening) (database : Database) :
    Option Nat × Database :=
  if MaxConnection ≤ database.m_connections.length then (none, database)
  else if (database.m_connections.map Prod.fst).contains (cStr name) then (none, database)
  else
    let connection := database.allocated
    let allocated := { database with allocated := connection + 1 }
    let registered := fun (database : Database) =>
      { database with m_connections := database.m_connections ++ [(cStr name, connection)] }
    if database.isRunning then
      match allocated.openConnection connection opening with
      | (true, opened) => (some connection, registered opened)
      | (false, failed) => (none, failed.closeConnection false connection)
    else (some connection, registered allocated)

def findConnection (name : Bytes) (database : Database) : Option Nat :=
  database.m_connections.lookup (cStr name)

/-- The loop of `do_initialize`, with the number of connections that were opened. -/
def openAll (openings : Nat → Opening) : List (Bytes × Nat) → Database → Nat × Database
  | [], database => (0, database)
  | (_, connection) :: rest, database =>
    let opened := database.openConnection connection (openings connection)
    let behind := openAll openings rest opened.2
    (behind.1 + (if opened.1 then 1 else 0), behind.2)

/-- The service is running behind it unless some connection failed and none was opened. -/
def do_initialize (openings : Nat → Opening) (database : Database) : Bool × Database :=
  let behind := openAll openings database.m_connections database
  let throws := decide (behind.1 = 0) && !database.m_connections.isEmpty
  (!throws, { behind.2 with isRunning := !throws })

/-- The statements are cleared behind the connections. -/
def do_stop (refuses : Nat → Bool) (database : Database) : Database :=
  let closed := database.m_connections.foldl
    (fun database connection => database.closeConnection (refuses connection.2) connection.2) database
  { closed with isRunning := false, m_connections := [] }

def recover (refuses : Bool) (connection : Nat) (opening : Opening) (database : Database) :
    Bool × Database :=
  (database.closeConnection refuses connection).openConnection connection opening

inductive Call where
  | createConnection (name : Bytes) (opening : Opening)
  | start (openings : Nat → Opening)
  | stop (refuses : Nat → Bool)
  | recover (refuses : Bool) (connection : Nat) (opening : Opening)
  | destroy (refuses : Bool) (connection : Nat)

/-- `Service::initialize` starts a service that runs once more, while `Runnable::stop` tests the status.
A connection in the list is not destroyed. -/
def step (database : Database) : Call → Database
  | .createConnection name opening => (database.createConnection name opening).2
  | .start openings => (database.do_initialize openings).2
  | .stop refuses => if database.isRunning then database.do_stop refuses else database
  | .recover refuses connection opening =>
    if connection < database.allocated then (database.recover refuses connection opening).2
    else database
  | .destroy refuses connection =>
    if (database.m_connections.map Prod.snd).contains connection then database
    else database.closeConnection refuses connection

/-- A start finds no connection open, and the library does not refuse to close a handle. -/
def Careful (database : Database) : Call → Prop
  | .createConnection _ _ => True
  | .start _ =>
    ∀ connection ∈ database.m_connections.map Prod.snd, database.handles.holds connection = none
  | .stop refuses => database.isRunning = true → ∀ connection ∈ database.m_connections.map Prod.snd,
      refuses connection = true → database.handles.holds connection = none
  | .recover refuses connection _ => connection < database.allocated → refuses = true →
      database.handles.holds connection = none
  | .destroy refuses connection => connection ∉ database.m_connections.map Prod.snd →
      refuses = true → database.handles.holds connection = none

end Database

variable {handles : Ownership Nat Nat}

theorem numbered_take (h : Numbered handles) (connection : Nat) (opening : Opening) :
    Numbered (opening.take connection handles) := by
  cases opening with
  | opened => exact h.put connection (.inl rfl)
  | unsecured => exact h.put connection (.inl rfl)
  | failed leaves =>
    refine (h.put connection ?_).release connection
    cases leaves
    · exact .inr rfl
    · exact .inl rfl

/-- An opening loses the handle that the connection holds, and no other. -/
theorem settled_take_iff (h : Numbered handles) (connection : Nat) (opening : Opening) :
    (opening.take connection handles).Settled ↔
      handles.Settled ∧ handles.holds connection = none := by
  cases opening with
  | opened => exact h.settled_put_iff connection (.inl rfl)
  | unsecured => exact h.settled_put_iff connection (.inl rfl)
  | failed leaves =>
    have hr : (if leaves then some handles.acquired.length else none) =
        some handles.acquired.length ∨
          (if leaves then some handles.acquired.length else none) = none := by
      cases leaves <;> simp
    exact (Ownership.settled_release_iff (h.put connection hr).consistent).trans
      (h.settled_put_iff connection hr)

theorem holds_take_of_ne {connection other : Nat} (hne : other ≠ connection) (opening : Opening) :
    (opening.take connection handles).holds other = handles.holds other := by
  cases opening <;> simp [Opening.take, Ownership.put, Ownership.release, hne]

theorem numbered_close (h : Numbered handles) (refuses : Bool) (connection : Nat) :
    Numbered (closeHandle refuses connection handles) := by
  cases refuses with
  | false => exact h.release connection
  | true => exact h.put connection (.inr rfl)

theorem settled_close_iff (h : Numbered handles) (refuses : Bool) (connection : Nat) :
    (closeHandle refuses connection handles).Settled ↔
      handles.Settled ∧ (refuses = true → handles.holds connection = none) := by
  cases refuses with
  | false =>
    exact (Ownership.settled_release_iff h.consistent).trans (and_iff_left nofun).symm
  | true =>
    exact (h.settled_put_iff connection (.inr rfl)).trans
      (and_congr_right fun _ => (imp_iff_right rfl).symm)

@[simp] theorem holds_close_self (refuses : Bool) (connection : Nat) :
    (closeHandle refuses connection handles).holds connection = none := by
  cases refuses <;> simp [closeHandle, Ownership.release, Ownership.put]

theorem holds_close_of_ne {refuses : Bool} {connection other : Nat} (hne : other ≠ connection) :
    (closeHandle refuses connection handles).holds other = handles.holds other := by
  cases refuses <;> simp [closeHandle, Ownership.release, Ownership.put, hne]

namespace Database

structure Consistent (database : Database) : Prop where
  handles : Numbered database.handles
  allocated : ∀ connection, database.allocated ≤ connection →
    database.handles.holds connection = none
  connections : ∀ connection ∈ database.m_connections.map Prod.snd, connection < database.allocated
  distinct : (database.m_connections.map Prod.snd).Nodup
  names : (database.m_connections.map Prod.fst).Nodup
  size : database.m_connections.length ≤ MaxConnection

variable {database : Database} {connection : Nat} {opening : Opening}

theorem consistent_instantiate : Consistent instantiate where
  handles := numbered_nil
  allocated _ _ := rfl
  connections _ h := absurd h List.not_mem_nil
  distinct := List.nodup_nil
  names := List.nodup_nil
  size := Nat.zero_le _

theorem openAll_spec (openings : Nat → Opening) {connections : List (Bytes × Nat)}
    (hdistinct : (connections.map Prod.snd).Nodup) (h : Numbered database.handles) :
    ∃ handles, (openAll openings connections database).2 = { database with handles := handles } ∧
      Numbered handles ∧
      (∀ connection ∉ connections.map Prod.snd,
        handles.holds connection = database.handles.holds connection) ∧
      (handles.Settled ↔ database.handles.Settled ∧
        ∀ connection ∈ connections.map Prod.snd, database.handles.holds connection = none) := by
  induction connections generalizing database with
  | nil => exact ⟨database.handles, rfl, h, fun _ _ => rfl, by simp⟩
  | cons head rest ih =>
    obtain ⟨name, connection⟩ := head
    rw [List.map_cons, List.nodup_cons] at hdistinct
    obtain ⟨handles, heq, hnumbered, hframe, hsettled⟩ :=
      @ih (database.openConnection connection (openings connection)).2 hdistinct.2
        (numbered_take h connection (openings connection))
    refine ⟨handles, heq, hnumbered, fun other hother => ?_, ?_⟩
    · rw [List.map_cons, List.mem_cons, not_or] at hother
      rw [hframe other hother.2]
      exact holds_take_of_ne hother.1 _
    · rw [hsettled]
      simp only [openConnection, settled_take_iff h, List.map_cons, List.forall_mem_cons]
      have hrest : (∀ other ∈ rest.map Prod.snd,
          ((openings connection).take connection database.handles).holds other = none) ↔
          ∀ other ∈ rest.map Prod.snd, database.handles.holds other = none := by
        refine forall₂_congr fun other hother => ?_
        have hne : other ≠ connection := by
          rintro rfl
          exact hdistinct.1 hother
        rw [holds_take_of_ne hne]
      rw [hrest, and_assoc]

theorem holds_close_eq_none {refuses : Bool} {other : Nat} (h : handles.holds other = none) :
    (closeHandle refuses connection handles).holds other = none := by
  by_cases hother : other = connection
  · rw [hother, holds_close_self]
  · rw [holds_close_of_ne hother, h]

theorem closeAll_spec (refuses : Nat → Bool) {connections : List (Bytes × Nat)}
    (hdistinct : (connections.map Prod.snd).Nodup) (h : Numbered database.handles) :
    ∃ handles, connections.foldl (fun database connection =>
        database.closeConnection (refuses connection.2) connection.2) database =
          { database with handles := handles } ∧ Numbered handles ∧
      (∀ connection, database.handles.holds connection = none →
        handles.holds connection = none) ∧
      (handles.Settled ↔ database.handles.Settled ∧ ∀ connection ∈ connections.map Prod.snd,
        refuses connection = true → database.handles.holds connection = none) := by
  induction connections generalizing database with
  | nil => exact ⟨database.handles, rfl, h, fun _ => id, by simp⟩
  | cons head rest ih =>
    obtain ⟨name, connection⟩ := head
    rw [List.map_cons, List.nodup_cons] at hdistinct
    obtain ⟨handles, heq, hnumbered, hnone, hsettled⟩ :=
      @ih (database.closeConnection (refuses connection) connection) hdistinct.2
        (numbered_close h _ connection)
    refine ⟨handles, heq, hnumbered, fun other hother => hnone other (holds_close_eq_none hother), ?_⟩
    have hrest : (∀ other ∈ rest.map Prod.snd, refuses other = true →
        (closeHandle (refuses connection) connection database.handles).holds other = none) ↔
        ∀ other ∈ rest.map Prod.snd, refuses other = true →
          database.handles.holds other = none := by
      refine forall₂_congr fun other hother => ?_
      have hne : other ≠ connection := by
        rintro rfl
        exact hdistinct.1 hother
      rw [holds_close_of_ne hne]
    rw [hsettled]
    simp only [closeConnection, settled_close_iff h, List.map_cons, List.forall_mem_cons]
    rw [hrest, and_assoc]

theorem Consistent.register (h : Consistent database) {name : Bytes} {handles : Ownership Nat Nat}
    (hnumbered : Numbered handles)
    (hframe : ∀ connection, connection ≠ database.allocated →
      handles.holds connection = database.handles.holds connection)
    (hsize : ¬ MaxConnection ≤ database.m_connections.length)
    (hname : (database.m_connections.map Prod.fst).contains (cStr name) = false)
    (isRunning : Bool) :
    Consistent ⟨isRunning, database.m_connections ++ [(cStr name, database.allocated)],
      database.allocated + 1, handles⟩ where
  handles := hnumbered
  allocated connection hle := by
    have hlt : database.allocated < connection := hle
    have hnone := h.allocated connection hlt.le
    rwa [← hframe connection hlt.ne'] at hnone
  connections connection hmem := by
    simp only [List.map_append, List.map_cons, List.map_nil, List.mem_append,
      List.mem_singleton] at hmem
    rcases hmem with hmem | rfl
    · exact (h.connections connection hmem).trans (Nat.lt_succ_self _)
    · exact Nat.lt_succ_self _
  distinct := by
    rw [List.map_append, List.nodup_append]
    refine ⟨h.distinct, List.nodup_singleton _, ?_⟩
    rintro connection hmem _ hnew rfl
    rw [List.map_cons, List.map_nil, List.mem_singleton] at hnew
    exact absurd (h.connections connection hmem) (by simp [hnew])
  names := by
    rw [List.map_append, List.nodup_append]
    refine ⟨h.names, List.nodup_singleton _, ?_⟩
    rintro other hmem _ hnew rfl
    rw [List.map_cons, List.map_nil, List.mem_singleton] at hnew
    rw [hnew] at hmem
    simp [hmem] at hname
  size := by
    rw [List.length_append, List.length_singleton]
    omega

theorem Consistent.discard (h : Consistent database) (opening : Opening) (isRunning : Bool) :
    Consistent ⟨isRunning, database.m_connections, database.allocated + 1,
      closeHandle false database.allocated (opening.take database.allocated database.handles)⟩ where
  handles := numbered_close (numbered_take h.handles database.allocated opening) false _
  allocated connection hle := by
    have hlt : database.allocated < connection := hle
    have hnone := (holds_take_of_ne hlt.ne' opening).trans (h.allocated connection hlt.le)
    rw [holds_close_eq_none hnone]
  connections connection hmem := (h.connections connection hmem).trans (Nat.lt_succ_self _)
  distinct := h.distinct
  names := h.names
  size := h.size

theorem createConnection_spec (h : Consistent database) (name : Bytes) (opening : Opening) :
    Consistent (database.createConnection name opening).2 ∧
      ((database.createConnection name opening).2.handles.Settled ↔
        database.handles.Settled) := by
  have hnone := h.allocated database.allocated (Nat.le_refl _)
  have htake := numbered_take h.handles database.allocated opening
  have hsettled := settled_take_iff h.handles database.allocated opening
  rw [and_iff_left hnone] at hsettled
  rw [createConnection]
  split
  · exact ⟨h, Iff.rfl⟩
  · next hsize =>
    split
    · exact ⟨h, Iff.rfl⟩
    · next hname =>
      rw [Bool.not_eq_true] at hname
      have hregister := h.register htake
        (fun connection hne => holds_take_of_ne hne opening) hsize hname true
      cases hrunning : database.isRunning with
      | false =>
        simp only [Bool.false_eq_true, if_false]
        exact ⟨h.register h.handles (fun _ _ => rfl) hsize hname false, trivial⟩
      | true =>
        simp only [if_true]
        have hdiscard := h.discard opening true
        have hclosed := (settled_close_iff htake false database.allocated).trans
          ((and_iff_left nofun).trans hsettled)
        cases opening with
        | opened => exact ⟨hregister, hsettled⟩
        | failed leaves => exact ⟨hdiscard, hclosed⟩
        | unsecured => exact ⟨hdiscard, hclosed⟩

theorem Consistent.withHandles (h : Consistent database) {handles : Ownership Nat Nat}
    (hnumbered : Numbered handles) (hallocated : ∀ connection, database.allocated ≤ connection →
      handles.holds connection = database.handles.holds connection ∨
        handles.holds connection = none) (isRunning : Bool) :
    Consistent { database with isRunning := isRunning, handles := handles } where
  handles := hnumbered
  allocated connection hle := (hallocated connection hle).elim
    (fun heq => heq.trans (h.allocated connection hle)) id
  connections := h.connections
  distinct := h.distinct
  names := h.names
  size := h.size

theorem step_spec (h : Consistent database) (call : Call) :
    Consistent (database.step call) ∧
      ((database.step call).handles.Settled ↔
        database.handles.Settled ∧ database.Careful call) := by
  cases call with
  | createConnection name opening =>
    obtain ⟨hconsistent, hsettled⟩ := createConnection_spec h name opening
    exact ⟨hconsistent, hsettled.trans (and_iff_left trivial).symm⟩
  | start openings =>
    obtain ⟨handles, heq, hnumbered, hframe, hsettled⟩ :=
      openAll_spec openings h.distinct h.handles
    simp only [step, do_initialize, heq]
    refine ⟨h.withHandles hnumbered (fun connection hle => .inl (hframe connection ?_)) _, hsettled⟩
    intro hmem
    exact absurd (h.connections connection hmem) (by omega)
  | stop refuses =>
    rw [step, Careful]
    split
    · next hrunning =>
      obtain ⟨handles, heq, hnumbered, hnone, hsettled⟩ :=
        closeAll_spec refuses h.distinct h.handles
      simp only [do_stop, heq, hrunning, true_implies]
      exact ⟨⟨hnumbered, fun connection hle => hnone connection (h.allocated connection hle),
        fun _ hmem => absurd hmem List.not_mem_nil, List.nodup_nil, List.nodup_nil,
        Nat.zero_le _⟩, hsettled⟩
    · next hstopped => exact ⟨h, (and_iff_left fun hrunning => absurd hrunning hstopped).symm⟩
  | recover refuses connection opening =>
    rw [step, Careful]
    split
    · next hlt =>
      have hclosed := numbered_close h.handles refuses connection
      refine ⟨h.withHandles (numbered_take hclosed connection opening)
        (fun other hle => .inl ?_) _, ?_⟩
      · have hne : other ≠ connection := by omega
        exact (holds_take_of_ne hne _).trans (holds_close_of_ne hne)
      · have hsettled := settled_take_iff hclosed connection opening
        rw [and_iff_left (holds_close_self refuses connection)] at hsettled
        rw [imp_iff_right hlt]
        exact hsettled.trans (settled_close_iff h.handles refuses connection)
    · next hnew => exact ⟨h, (and_iff_left fun hlt => absurd hlt hnew).symm⟩
  | destroy refuses connection =>
    rw [step, Careful, List.contains_eq_mem]
    by_cases hmem : connection ∈ database.m_connections.map Prod.snd
    · rw [if_pos (by simpa using hmem)]
      exact ⟨h, (and_iff_left fun hnot => absurd hmem hnot).symm⟩
    · rw [if_neg (by simpa using hmem), imp_iff_right hmem]
      refine ⟨h.withHandles (numbered_close h.handles refuses connection) (fun other hle => ?_) _,
        settled_close_iff h.handles refuses connection⟩
      exact .inr (holds_close_eq_none (h.allocated other hle))

theorem consistent_run (calls : List Call) : Consistent (run step instantiate calls) :=
  @invariant _ _ step instantiate Consistent (fun _ call h => (step_spec h call).1)
    consistent_instantiate calls

/-- A guard opens the connection before the start, which opens it again over the first handle. -/
example : (run step instantiate [.createConnection (text "0") .opened, .recover false 0 .opened,
    .start fun _ => .opened]).handles.acquired = [0, 1] := by decide

end Database

end Coffee.Dbms
