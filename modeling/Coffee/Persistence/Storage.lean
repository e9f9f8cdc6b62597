import Coffee.Basis.LruRefinement
import Mathlib.Logic.Function.Basic

/-! # Persistent storages

`persistence::Storage` keeps the loaded objects in an LRU cache. Keys and objects are reached
through pointers: the cache holds the key pointer of the caller, and the caller may assign the
columns of the key behind it. The database is a table from key values to members: what the
connection sees of it, and what a rollback would bring back.
-/

namespace Coffee.Persistence

open Coffee.Library Coffee.Basis

inductive StorageException where
  | unavailable | databaseError | notFound
deriving DecidableEq, Repr

/-- How the database meets a call: no guard can be built, the statement fails and changes nothing, the
statement is run but a commit behind it throws, or all is run. -/
inductive Service where
  | unavailable | fails | refused | works
deriving DecidableEq, Repr

structure Object (M : Type) where
  m_primaryKey : Nat
  members : M
deriving DecidableEq, Repr

/-- An object pointer of the cache. `cachedFor` is the value that the key had when the pair was
stored; no code reads it. -/
structure Cached (V : Type) where
  object : Nat
  cachedFor : V
deriving DecidableEq, Repr

/-- The storage, the cells its pointers lead to and the table of the database. `kept` are the rows that
a rollback brings back. No code reads the last two fields: `written` is what the last successful save
or erase of a key value left, `none` before the first, and `settled` says that a rollback takes none
of these back. -/
structure Storage (V M : Type) where
  m_cache : Cache Nat (Cached V)
  m_hitCounter : UInt32
  m_faultCounter : UInt32
  keys : Nat → V
  objects : List (Object M)
  rows : V → Option M
  kept : V → Option M
  written : V → Option (Option M)
  settled : Bool

namespace Storage

variable {V M : Type}

def instantiate (maxCacheSize : Int32) (keys : Nat → V) (rows : V → Option M) : Storage V M :=
  ⟨.instantiate maxCacheSize, 0, 0, keys, [], rows, rows, fun _ => none, true⟩

/-- `HashSharedPointer` and `EqualSharedPointer` look at what the keys hold at the time of the call. -/
def keyHasher (hasher : Hasher V) (keys : Nat → V) : Hasher Nat where
  hash key := hasher.hash (keys key)
  equal a b := hasher.equal (keys a) (keys b)

def assignRow {R : Type} (hasher : Hasher V) (rows : V → R) (value : V) (row : R) : V → R :=
  fun other => if hasher.equal value other then row else rows other

/-- `Loader::apply`. -/
def retrieve (storage : Storage V M) (key : Nat) (service : Service) :
    Except StorageException M :=
  match service with
  | .works => match storage.rows (storage.keys key) with
    | some members => .ok members
    | none => .error .notFound
  | .fails | .refused => .error .databaseError
  | .unavailable => .error .unavailable

theorem retrieve_eq_ok {storage : Storage V M} {key : Nat} {service : Service} {members : M} :
    storage.retrieve key service = .ok members ↔
      service = .works ∧ storage.rows (storage.keys key) = some members := by
  cases service with
  | works =>
    rw [retrieve]
    cases storage.rows (storage.keys key) <;> simp
  | fails => simp [retrieve]
  | refused => simp [retrieve]
  | unavailable => simp [retrieve]

def setMembers (storage : Storage V M) (object : Nat) (members : M) : Storage V M :=
  { storage with objects := storage.objects.modify object fun cell => { cell with members } }

def loadFault (hasher : Hasher V) (storage : Storage V M) (key : Nat) (service : Service) :
    Option (Except StorageException Nat × Storage V M) :=
  let storage := { storage with m_faultCounter := storage.m_faultCounter + 1 }
  match storage.retrieve key service with
  | .error exception => some (.error exception, storage)
  | .ok members => do
    let object := storage.objects.length
    let m_cache ← storage.m_cache.set (keyHasher hasher storage.keys) key
      ⟨object, storage.keys key⟩
    return (.ok object, { storage with m_cache, objects := storage.objects ++ [⟨key, members⟩] })

def loadHit (storage : Storage V M) (key object : Nat) (hasToRefresh : Bool) (service : Service) :
    Except StorageException Nat × Storage V M :=
  let storage := { storage with m_hitCounter := storage.m_hitCounter + 1 }
  if hasToRefresh then
    match storage.retrieve key service with
    | .error exception => (.error exception, storage)
    | .ok members => (.ok object, storage.setMembers object members)
  else (.ok object, storage)

/-- The cache is searched before the guards are built. -/
def load (hasher : Hasher V) (storage : Storage V M) (key : Nat) (hasToRefresh : Bool)
    (service : Service) : Option (Except StorageException Nat × Storage V M) := do
  let (vv, m_cache) ← storage.m_cache.find (keyHasher hasher storage.keys) key
  let storage := { storage with m_cache }
  match service, vv with
  | .unavailable, _ => return (.error .unavailable, storage)
  | _, none => storage.loadFault hasher key service
  | _, some node => return storage.loadHit key node.value.object hasToRefresh service

def commit (storage : Storage V M) : Storage V M :=
  { storage with kept := storage.rows, settled := true }

def rollback (storage : Storage V M) : Storage V M :=
  { storage with rows := storage.kept }

/-- The statement of a recorder or an eraser, with the commits behind it: the automatic one of
`Connection::execute` and, with `hasAutoCommit`, the one of the storage. -/
def apply (hasher : Hasher V) (storage : Storage V M) (value : V) (row : Option M)
    (hasAutoCommit : Bool) (service : Service) : Except StorageException Unit × Storage V M :=
  let behind := { storage with rows := assignRow hasher storage.rows value row }
  match service with
  | .unavailable => (.error .unavailable, storage)
  | .fails => (.error .databaseError, storage)
  -- the caller gets an exception, yet the row has been replaced
  | .refused => (.error .databaseError, behind)
  | .works =>
    let behind := { behind with
      written := assignRow hasher storage.written value (some row), settled := false }
    (.ok (), if hasAutoCommit then behind.commit else behind)

/-- The object holds `members` when the recorder is applied. -/
def save (hasher : Hasher V) (storage : Storage V M) (object : Nat) (members : M)
    (hasAutoCommit : Bool) (service : Service) :
    Option (Except StorageException Unit × Storage V M) := do
  let cell ← storage.objects[object]?
  let storage := storage.setMembers object members
  return storage.apply hasher (storage.keys cell.m_primaryKey) (some members) hasAutoCommit service

/-- The pair leaves the cache before the statement is run, and once the connection is locked. -/
def erase (hasher : Hasher V) (storage : Storage V M) (key : Nat) (hasAutoCommit : Bool)
    (service : Service) : Option (Except StorageException Unit × Storage V M) :=
  match service with
  | .unavailable => some (.error .unavailable, storage)
  | _ => do
    let (loaded, m_cache) ← storage.m_cache.erase (keyHasher hasher storage.keys) key
    let storage := { storage with
      m_cache
      m_hitCounter := if loaded then storage.m_hitCounter + 1 else storage.m_hitCounter
      m_faultCounter := if loaded then storage.m_faultCounter else storage.m_faultCounter + 1 }
    return storage.apply hasher (storage.keys key) none hasAutoCommit service

/-- A call of the storage, what its callers do to the cells (they assign the columns of a key, make an
object of a class for a key or set the members of an object), or what the connection does to the
statements that were run: the changes are made permanent, or they are taken back. -/
inductive Operation (V M : Type) where
  | load (key : Nat) (hasToRefresh : Bool) (service : Service)
  | save (object : Nat) (members : M) (hasAutoCommit : Bool) (service : Service)
  | erase (key : Nat) (hasAutoCommit : Bool) (service : Service)
  | assign (key : Nat) (value : V)
  | createObject (key : Nat) (members : M)
  | setMembers (object : Nat) (members : M)
  | commit
  | rollback
deriving DecidableEq, Repr

def step (hasher : Hasher V) (storage : Storage V M) : Operation V M → Option (Storage V M)
  | .load key hasToRefresh service => (·.2) <$> storage.load hasher key hasToRefresh service
  | .save object members hasAutoCommit service =>
    (·.2) <$> storage.save hasher object members hasAutoCommit service
  | .erase key hasAutoCommit service => (·.2) <$> storage.erase hasher key hasAutoCommit service
  | .assign key value => some { storage with keys := Function.update storage.keys key value }
  | .createObject key members =>
    some { storage with objects := storage.objects ++ [⟨key, members⟩] }
  | .setMembers object members => some (storage.setMembers object members)
  | .commit => some storage.commit
  | .rollback => some storage.rollback

section Apply

variable {hasher : Hasher V} {storage : Storage V M} {value : V} {row : Option M}
  {hasAutoCommit : Bool} {service : Service}

@[simp] theorem apply_m_cache :
    (storage.apply hasher value row hasAutoCommit service).2.m_cache = storage.m_cache := by
  cases service <;> cases hasAutoCommit <;> rfl

@[simp] theorem apply_keys :
    (storage.apply hasher value row hasAutoCommit service).2.keys = storage.keys := by
  cases service <;> cases hasAutoCommit <;> rfl

@[simp] theorem apply_objects :
    (storage.apply hasher value row hasAutoCommit service).2.objects = storage.objects := by
  cases service <;> cases hasAutoCommit <;> rfl

theorem apply_written : (storage.apply hasher value row hasAutoCommit service).2.written =
    if service = .works then assignRow hasher storage.written value (some row)
    else storage.written := by
  cases service <;> cases hasAutoCommit <;> rfl

end Apply

end Storage

end Coffee.Persistence
