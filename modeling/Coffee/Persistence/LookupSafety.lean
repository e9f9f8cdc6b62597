import Coffee.Basis.LruLookup
import Coffee.Persistence.KeyHash
import Coffee.Persistence.Storage

/-! # Lookups of keys that cannot be compared

A storage holds the objects of several classes, so keys with other columns meet in its cache. When
their hashes agree the comparison may throw, inside a `find` that lets no exception out.
-/

namespace Coffee.Dbms.Datatype

open Coffee.Basis Coffee.Library Library.Circular

theorem Value.do_compare_symm {x y : Value} (htype : x.getType = y.getType)
    (h : x.do_compare y = .ok 0) : y.do_compare x = .ok 0 := by
  have hshort : y.getType ≠ .ShortBlock := by
    rintro hblock
    cases y with
    | ShortBlock a => cases x <;> cases h
    | _ => cases hblock
  have hlong : y.getType ≠ .LongBlock := by
    rintro hblock
    cases y with
    | LongBlock a => cases x <;> cases h
    | _ => cases hblock
  obtain ⟨hround, hstrings⟩ := do_compare_eq_zero htype h
  obtain ⟨result, hresult, horder⟩ := do_compare_order htype.symm hshort hlong
  have hzero : keyed (2 ^ 31) key tie y x = 0 := by
    refine (keyed_eq_zero_iff (by decide)).mpr ⟨?_, ?_⟩
    · simp only [ahead]
      omega
    · rw [tie, hstrings, threeWay_eq_zero.mpr rfl]
      rfl
  have hresult0 : result = 0 := Int32.toInt_inj.mp (horder.trans hzero)
  rw [hresult, hresult0]

namespace Abstract

variable {x y : Abstract}

/-- Columns whose comparison throws: two datatypes, or two blocks with values. -/
def Incomparable (x y : Abstract) : Prop :=
  x.getType ≠ y.getType ∨ x.hasValue = true ∧ y.hasValue = true ∧
    (x.getType = .ShortBlock ∨ x.getType = .LongBlock)

theorem do_compare_throws_iff {x y : Value} (htype : x.getType = y.getType) :
    (∃ exception, x.do_compare y = .error exception) ↔
      x.getType = .ShortBlock ∨ x.getType = .LongBlock := by
  cases x <;> cases y <;> try cases htype
  all_goals simp [Value.do_compare, Value.getType]

theorem incomparable_iff : x.Incomparable y ↔ ∃ exception, x.compare y = .error exception := by
  rw [Incomparable, compare]
  split
  · rename_i htype
    exact iff_of_true (.inl htype) ⟨_, rfl⟩
  · rename_i htype
    have hthrows := do_compare_throws_iff (not_not.mp htype)
    simp only [getType] at hthrows htype ⊢
    cases x.hasValue <;> cases y.hasValue <;> simp [htype, hthrows]

theorem compare_symm (h : x.compare y = .ok 0) : y.compare x = .ok 0 := by
  unfold compare at h ⊢
  split at h
  · cases h
  · rename_i htype
    rw [if_neg (by simpa [eq_comm] using htype)]
    cases hx : x.hasValue <;> cases hy : y.hasValue <;> simp only [hx, hy] at h ⊢
    · rfl
    · cases h
    · cases h
    · exact Value.do_compare_symm (not_not.mp htype) h

end Abstract

/-- The numbers of the `Float` columns, the sign of their difference and `std::hash<float>`. A
difference that is zero is zero in both directions. -/
structure Floats where
  Number : Type
  do_compare : Number → Number → Int32
  hash : Number → UInt64
  symm : ∀ a b, do_compare a b = 0 → do_compare b a = 0

/-- A column of `Float`, or of another datatype. -/
inductive AnyColumn (floats : Floats) where
  | float (m_name : CString) (m_isNull : Bool) (m_value : floats.Number)
  | other (column : Abstract)

namespace AnyColumn

variable {floats : Floats}

def getName : AnyColumn floats → CString
  | float m_name _ _ => m_name
  | other column => column.m_name

def hash (string : Bytes → UInt64) : AnyColumn floats → UInt64
  | float _ _ m_value => floats.hash m_value
  | other column => column.hash string

def sameType : AnyColumn floats → AnyColumn floats → Bool
  | float _ _ _, float _ _ _ => true
  | other x, other y => x.getType = y.getType
  | _, _ => false

def compare : AnyColumn floats → AnyColumn floats → Except CompareException Int32
  | float _ m_isNull m_value, float _ isNull value =>
    match !m_isNull, !isNull with
    | false, false => .ok 0
    | true, false => .ok 1
    | false, true => .ok (-1)
    | true, true => .ok (floats.do_compare m_value value)
  | other x, other y => x.compare y
  | _, _ => .error .typeMismatch

/-- Floats are always comparable with one another. -/
def Incomparable : AnyColumn floats → AnyColumn floats → Prop
  | float _ _ _, float _ _ _ => False
  | other x, other y => x.Incomparable y
  | _, _ => True

variable {x y : AnyColumn floats}

theorem incomparable_iff : x.Incomparable y ↔ ∃ exception, x.compare y = .error exception := by
  cases x with
  | float m_name m_isNull m_value =>
    cases y with
    | float name isNull value =>
      cases m_isNull <;> cases isNull <;> simp [Incomparable, compare]
    | other y => exact iff_of_true trivial ⟨_, rfl⟩
  | other x =>
    cases y with
    | float name isNull value => exact iff_of_true trivial ⟨_, rfl⟩
    | other y => exact Abstract.incomparable_iff

theorem compare_symm (h : x.compare y = .ok 0) : y.compare x = .ok 0 := by
  cases x with
  | float m_name m_isNull m_value =>
    cases y with
    | float name isNull value =>
      cases m_isNull <;> cases isNull <;> simp only [compare] at h ⊢
      · exact congrArg Except.ok (floats.symm _ _ (Except.ok.inj h))
      · cases h
      · cases h
      · rfl
    | other y => cases h
  | other x =>
    cases y with
    | float name isNull value => cases h
    | other y => exact Abstract.compare_symm h

def columns (floats : Floats) : Columns (AnyColumn floats) := ⟨getName, compare⟩

end AnyColumn

end Coffee.Dbms.Datatype

namespace Coffee.Dbms.DataSet

open Coffee.Library

variable {D : Type} {columns : Columns D} {set other : DataSet columns} {datas : List D} {data : D}

/-- The walk along the columns of a set comes to one that cannot be compared with the other set. -/
def Incomparable (set other : DataSet columns) : Prop :=
  set.size ≠ other.size ∨
    Walk.Stops
      (fun data => ∃ found, other.find (columns.getName data) = .ok found ∧
        columns.compare data found = .ok 0)
      (fun data => ∀ found, other.find (columns.getName data) = .ok found →
        ∃ exception, columns.compare data found = .error exception) set.m_creationOrder

theorem compareFrom_throws_iff : (∃ exception, other.compareFrom datas = .error exception) ↔
    Walk.Stops
      (fun data => ∃ found, other.find (columns.getName data) = .ok found ∧
        columns.compare data found = .ok 0)
      (fun data => ∀ found, other.find (columns.getName data) = .ok found →
        ∃ exception, columns.compare data found = .error exception) datas := by
  induction datas with
  | nil => simp [DataSet.compareFrom]
  | cons data datas ih =>
    rw [Walk.stops_cons, ← ih, DataSet.compareFrom]
    cases hfound : other.find (columns.getName data) with
    | error exception => simp [bind, Except.bind]
    | ok found =>
      cases hcompare : columns.compare data found with
      | error exception => simp [bind, Except.bind, hcompare]
      | ok result =>
        rcases Decidable.em (result = 0) with rfl | hne
        · simp [bind, Except.bind, hcompare]
        · simp [bind, Except.bind, hcompare, hne, pure, Except.pure]

theorem compare_throws_iff {same : Bool} : (∃ exception, set.compare other same = .error exception) ↔
    same = false ∧ set.Incomparable other := by
  rw [DataSet.compare, Incomparable, ← compareFrom_throws_iff]
  cases same with
  | true => simp
  | false =>
    rcases Decidable.em (set.size = other.size) with hsize | hsize <;> simp [hsize]

end Coffee.Dbms.DataSet

namespace Coffee.Persistence

open Coffee.Basis Coffee.Library Coffee.Dbms Coffee.Dbms.Datatype Library.Runs

abbrev AnyKey (floats : Floats) := DataSet (AnyColumn.columns floats)

namespace AnyKey

variable {floats : Floats} {key other : AnyKey floats}

def code (string : Bytes → UInt64) (data : AnyColumn floats) : UInt64 := data.hash string <<< 1

/-- `PrimaryKey::hash` -/
def hash (string : Bytes → UInt64) (key : AnyKey floats) : UInt64 :=
  key.m_creationOrder.foldl (fun result data => result ^^^ code string data)
    (UInt64.ofNat key.size)

theorem equal_symm (h : key.Equal other) : other.Equal key := by
  obtain ⟨hsize, hpartner⟩ := DataSet.partner_of_equal h
  rw [DataSet.Equal, DataSet.compare, if_neg (by simp), if_neg (by simp [hsize])]
  refine DataSet.compareFrom_of_equal fun data hdata => ?_
  obtain ⟨own, hown, rfl⟩ := List.mem_map.mp ((DataSet.perm_of_equal h).symm.subset hdata)
  obtain ⟨-, hname, hcompare⟩ := hpartner own hown
  refine ⟨own, ?_, AnyColumn.compare_symm hcompare⟩
  rw [hname]
  exact DataSet.find_of_mem hown

/-- `PrimaryKey::matches`, which `Class::createObject` asks of the key of the class. -/
def doesMatch (key other : AnyKey floats) : Bool :=
  key.size = other.size && key.m_creationOrder.all fun data =>
    match other.find data.getName with
    | .ok found => found.sameType data
    | .error _ => false

end AnyKey

variable {floats : Floats}

/-- `HashSharedPointer` and `EqualSharedPointer`. A key is not compared with itself. -/
def keyHasher (string : Bytes → UInt64) (keys : Nat → AnyKey floats) :
    ThrowingHasher Nat CompareException where
  hash key := (keys key).hash string
  equal lhs rhs :=
    match (keys lhs).compare (keys rhs) (lhs = rhs) with
    | .ok result => .ok (result = 0)
    | .error exception => .error exception
  refl a := by
    rw [DataSet.compare, if_pos (by simp)]
    rfl
  symm a b h := by
    rcases Decidable.em (a = b) with rfl | hne
    · rw [DataSet.compare, if_pos (by simp)]
      rfl
    · rw [decide_eq_false hne] at h
      have hequal : (keys a).Equal (keys b) := by
        rw [DataSet.Equal]
        cases hcompare : (keys a).compare (keys b) false with
        | error exception => simp [hcompare] at h
        | ok result => simpa [hcompare] using h
      rw [decide_eq_false (Ne.symm hne), AnyKey.equal_symm hequal]
      rfl

structure Loader (floats : Floats) where
  getPrimaryKey : Nat
  m_primaryKey : AnyKey floats
  hasToRefresh : Bool
  service : Service

inductive LoadException where
  | doesNotMatch
  | compare (exception : CompareException)
  | storage (exception : StorageException)
deriving DecidableEq, Repr

/-- How a call ends: it returns or throws to its caller, or it ends the process. -/
inductive Ending (α : Type) where
  | returns (value : α)
  | terminates (exception : CompareException)
  | undefined

abbrev TheStorage (floats : Floats) (M : Type) := Storage (AnyKey floats) M

namespace TheStorage

variable {M : Type} (string : Bytes → UInt64) (storage : TheStorage floats M)

def loadFault (loader : Loader floats) : Option (Except LoadException Nat × TheStorage floats M) :=
  let storage : TheStorage floats M := { storage with m_faultCounter := storage.m_faultCounter + 1 }
  let key := loader.getPrimaryKey
  if !loader.m_primaryKey.doesMatch (storage.keys key) then some (.error .doesNotMatch, storage)
  else
    match storage.retrieve key loader.service with
    | .error exception => some (.error (.storage exception), storage)
    | .ok members => do
      let object := storage.objects.length
      let (result, m_cache) ← (keyHasher string storage.keys).set storage.m_cache key
        ⟨object, storage.keys key⟩
      return ((result.map fun _ => object).mapError .compare,
        { storage with m_cache, objects := storage.objects ++ [⟨key, members⟩] })

def load (loader : Loader floats) : Ending (Except LoadException Nat × TheStorage floats M) :=
  match (keyHasher string storage.keys).find storage.m_cache loader.getPrimaryKey with
  | .error exception => .terminates exception
  | .ok none => .undefined
  | .ok (some (vv, m_cache)) =>
    let storage : TheStorage floats M := { storage with m_cache }
    match loader.service, vv with
    | .unavailable, _ => .returns (.error (.storage .unavailable), storage)
    | _, none =>
      match loadFault string storage loader with
      | none => .undefined
      | some result => .returns result
    | _, some node =>
      let (result, storage) := storage.loadHit loader.getPrimaryKey node.value.object
        loader.hasToRefresh loader.service
      .returns (result.mapError .storage, storage)

/-- A load, a change that others make to the table, or another order of the elements of the map, which
an insertion may give them: no order of a `std::unordered_map` is promised. -/
inductive Operation (floats : Floats) (M : Type) where
  | load (loader : Loader floats)
  | assignRows (rows : AnyKey floats → Option M)
  | rearrange (entries : List (Cache.Entry Nat))

/-- Nothing is called once the process has ended. -/
def step : Ending (TheStorage floats M) → Operation floats M → Ending (TheStorage floats M)
  | .returns storage, .load loader =>
    match load string storage loader with
    | .returns result => .returns result.2
    | .terminates exception => .terminates exception
    | .undefined => .undefined
  | .returns storage, .assignRows rows => .returns { storage with rows }
  | .returns storage, .rearrange entries =>
    if entries.Perm storage.m_cache.m_quickAccess then
      .returns { storage with m_cache := { storage.m_cache with m_quickAccess := entries } }
    else .returns storage
  | ending, _ => ending

/-- The map holds a key with the hash of the given one that cannot be compared with it, and no equal
key before it in the order of its elements. -/
def Clashes (key : Nat) : Prop :=
  Walk.Stops
    (fun entry => entry.code = (storage.keys key).hash string →
      key ≠ entry.key ∧ ¬ (storage.keys key).Equal (storage.keys entry.key))
    (fun entry => entry.code = (storage.keys key).hash string ∧
      key ≠ entry.key ∧ (storage.keys key).Incomparable (storage.keys entry.key))
    storage.m_cache.m_quickAccess

/-- The load stores into a cache without room. -/
def Overflows (loader : Loader floats) : Prop :=
  storage.m_cache.m_maxSize = 0 ∧ loader.service = .works ∧
    loader.m_primaryKey.doesMatch (storage.keys loader.getPrimaryKey) = true ∧
    (storage.rows (storage.keys loader.getPrimaryKey)).isSome = true

def Comparable : Ending (TheStorage floats M) → Operation floats M → Prop
  | .returns storage, .load loader =>
    ¬ storage.Clashes string loader.getPrimaryKey ∧ ¬ storage.Overflows loader
  | _, _ => True

variable {string storage} {loader : Loader floats} {keys : Nat → AnyKey floats} {key other : Nat}

theorem equal_eq_true_iff : (keyHasher string keys).equal key other = .ok true ↔
    key = other ∨ (keys key).Equal (keys other) := by
  rcases Decidable.em (key = other) with rfl | hne
  · exact iff_of_true ((keyHasher string keys).refl key) (.inl rfl)
  · simp only [keyHasher, hne, false_or, decide_false, DataSet.Equal]
    cases (keys key).compare (keys other) false <;> simp

theorem equal_throws_iff :
    (∃ exception, (keyHasher string keys).equal key other = .error exception) ↔
      key ≠ other ∧ (keys key).Incomparable (keys other) := by
  have hthrows : (∃ exception, (keys key).compare (keys other) (key = other) = .error exception) ↔
      decide (key = other) = false ∧ (keys key).Incomparable (keys other) :=
    DataSet.compare_throws_iff
  rw [decide_eq_false_iff_not] at hthrows
  rw [← hthrows]
  simp only [keyHasher]
  cases (keys key).compare (keys other) (decide (key = other)) <;> simp

theorem equal_eq_false_iff : (keyHasher string keys).equal key other = .ok false ↔
    (key ≠ other ∧ ¬ (keys key).Equal (keys other)) ∧
      ¬ (key ≠ other ∧ (keys key).Incomparable (keys other)) := by
  have htrue : (keyHasher string keys).equal key other = .ok true ↔
      key = other ∨ (keys key).Equal (keys other) := equal_eq_true_iff
  have hthrows : (∃ exception, (keyHasher string keys).equal key other = .error exception) ↔
      key ≠ other ∧ (keys key).Incomparable (keys other) := equal_throws_iff
  rw [← hthrows, ← not_or, ← htrue]
  cases hequal : (keyHasher string keys).equal key other with
  | error exception => simp
  | ok equal => cases equal <;> simp

theorem clashes_iff : storage.Clashes string key ↔
    (keyHasher string storage.keys).Stumbles storage.m_cache key := by
  rw [Clashes, ThrowingHasher.Stumbles, ← Walk.stops_first]
  refine Walk.stops_congr (fun entry _ => ?_) fun entry _ => ?_
  · rw [equal_eq_false_iff]
    tauto
  · exact and_congr_right' equal_throws_iff.symm

/-- The cache is sound under the keys of the storage. -/
def Sound (string : Bytes → UInt64) (storage : TheStorage floats M) : Prop :=
  (keyHasher string storage.keys).Sound storage.m_cache

/-- The call comes back to its caller, with an object or an exception. -/
def Survives {α : Type} (ending : Ending α) : Prop := ∃ value, ending = .returns value

instance {α : Type} : (ending : Ending α) → Decidable (Survives ending)
  | .returns value => .isTrue ⟨value, rfl⟩
  | .terminates _ => .isFalse nofun
  | .undefined => .isFalse nofun

theorem loadFault_returns (h : storage.Sound string) (hoverflows : ¬ storage.Overflows loader)
    (hvisit : (keyHasher string storage.keys).visit storage.m_cache loader.getPrimaryKey = .ok none) :
    ∃ result after, storage.loadFault string loader = some (result, after) ∧
      after.Sound string := by
  unfold loadFault
  dsimp only
  split
  · exact ⟨_, _, rfl, h⟩
  · rename_i hmatch
    cases hretrieve : ({ storage with m_faultCounter := storage.m_faultCounter + 1 } :
        TheStorage floats M).retrieve loader.getPrimaryKey loader.service with
    | error exception => exact ⟨_, _, rfl, h⟩
    | ok members =>
      obtain ⟨hworks, hrow⟩ := Storage.retrieve_eq_ok.mp hretrieve
      have hroom : storage.m_cache.m_maxSize ≠ 0 := by
        intro hzero
        exact hoverflows ⟨hzero, hworks, by simpa using hmatch, Option.isSome_of_eq_some hrow⟩
      obtain ⟨result, after, hset, hsound, -⟩ := ThrowingHasher.Sound.set h
        (⟨storage.objects.length, storage.keys loader.getPrimaryKey⟩ : Cached (AnyKey floats))
        hroom hvisit
      simp only [hset, Option.bind_eq_bind, Option.bind_some]
      exact ⟨_, _, rfl, hsound⟩

theorem loadFault_undefined (h : storage.Sound string) (hoverflows : storage.Overflows loader) :
    storage.loadFault string loader = none := by
  obtain ⟨hzero, hworks, hmatch, hrow⟩ := hoverflows
  obtain ⟨members, hmembers⟩ := Option.isSome_iff_exists.mp hrow
  have hset := ThrowingHasher.Sound.set_undefined h loader.getPrimaryKey
    (⟨storage.objects.length, storage.keys loader.getPrimaryKey⟩ : Cached (AnyKey floats)) hzero
  simp [loadFault, hmatch, Storage.retrieve, hworks, hmembers, hset]

theorem Sound.loadHit (h : storage.Sound string) (key object : Nat) (hasToRefresh : Bool)
    (service : Service) : Sound string (storage.loadHit key object hasToRefresh service).2 := by
  rw [Storage.loadHit]
  split
  · split <;> exact h
  · exact h

/-- A load of a key that can be compared comes back, and keeps the cache sound. -/
theorem load_returns (h : storage.Sound string) (hclashes : ¬ storage.Clashes string loader.getPrimaryKey)
    (hoverflows : ¬ storage.Overflows loader) :
    ∃ result after, storage.load string loader = .returns (result, after) ∧
      after.Sound string := by
  rw [clashes_iff, ThrowingHasher.stumbles_iff] at hclashes
  unfold load
  cases hvisit : (keyHasher string storage.keys).visit storage.m_cache loader.getPrimaryKey with
  | error exception => exact absurd ⟨exception, hvisit⟩ hclashes
  | ok found =>
    cases found with
    | none =>
      rw [ThrowingHasher.Sound.find_none hvisit]
      obtain ⟨result, after, hfault, hsound⟩ := loadFault_returns h hoverflows hvisit
      cases hservice : loader.service with
      | unavailable => exact ⟨_, _, rfl, h⟩
      | fails => exact ⟨result, after, by simp only [hfault], hsound⟩
      | refused => exact ⟨result, after, by simp only [hfault], hsound⟩
      | works => exact ⟨result, after, by simp only [hfault], hsound⟩
    | some ii =>
      obtain ⟨node, after, hfind, hsound, -⟩ := ThrowingHasher.Sound.find_some h hvisit
      have hafter : Sound string ({ storage with m_cache := after } : TheStorage floats M) := hsound
      rw [hfind]
      cases hservice : loader.service with
      | unavailable => exact ⟨_, _, rfl, hafter⟩
      | fails => exact ⟨_, _, rfl, hafter.loadHit loader.getPrimaryKey node.value.object
          loader.hasToRefresh .fails⟩
      | refused => exact ⟨_, _, rfl, hafter.loadHit loader.getPrimaryKey node.value.object
          loader.hasToRefresh .refused⟩
      | works => exact ⟨_, _, rfl, hafter.loadHit loader.getPrimaryKey node.value.object
          loader.hasToRefresh .works⟩

theorem load_ends (h : storage.Sound string)
    (hends : storage.Clashes string loader.getPrimaryKey ∨ storage.Overflows loader) :
    ¬ Survives (storage.load string loader) := by
  rw [clashes_iff, ThrowingHasher.stumbles_iff] at hends
  rintro ⟨value, hload⟩
  unfold load at hload
  rcases hends with ⟨exception, hvisit⟩ | hoverflows
  · simp [ThrowingHasher.find, hvisit] at hload
  · have hvisit := ThrowingHasher.Sound.visit_empty h loader.getPrimaryKey hoverflows.1
    rw [ThrowingHasher.Sound.find_none hvisit] at hload
    simp [hoverflows.2.1, loadFault_undefined h hoverflows] at hload

theorem Sound.rearrange (h : storage.Sound string) {entries : List (Cache.Entry Nat)}
    (hperm : entries.Perm storage.m_cache.m_quickAccess) :
    Sound string ({ storage with m_cache := { storage.m_cache with m_quickAccess := entries } } :
      TheStorage floats M) :=
  ⟨⟨h.agrees.nodup, h.agrees.fresh, hperm.trans h.agrees.perm⟩, h.apart, h.empty⟩

theorem sound_instantiate (maxCacheSize : Int32) (rows : AnyKey floats → Option M) :
    Sound string (.instantiate maxCacheSize keys rows) :=
  ThrowingHasher.sound_instantiate maxCacheSize

/-- Loads survive exactly when none of them meets a key with its hash that it cannot be compared
with, and none stores into a cache without room. -/
theorem survives_iff_comparable (string : Bytes → UInt64) (maxCacheSize : Int32)
    (keys : Nat → AnyKey floats) (rows : AnyKey floats → Option M)
    (operations : List (Operation floats M)) :
    (∀ before, before <+: operations → Survives
        (run (step string) (.returns (.instantiate maxCacheSize keys rows)) before)) ↔
      Meets (step string) (Comparable string) (.returns (.instantiate maxCacheSize keys rows))
        operations := by
  let Inv (ending : Ending (TheStorage floats M)) := ∃ storage, ending = .returns storage ∧
    storage.Sound string
  have hinv : ∀ ending, Inv ending → Survives ending := by
    rintro _ ⟨storage, rfl, -⟩
    exact ⟨storage, rfl⟩
  have hkeeps : ∀ ending operation, Inv ending → Comparable string ending operation →
      Inv (step string ending operation) := by
    rintro _ operation ⟨storage, rfl, hsound⟩ hok
    cases operation with
    | load loader =>
      obtain ⟨result, after, hload, hafter⟩ := load_returns hsound hok.1 hok.2
      exact ⟨after, by rw [step, hload], hafter⟩
    | assignRows rows => exact ⟨_, rfl, hsound⟩
    | rearrange entries =>
      rw [step]
      split
      · exact ⟨_, rfl, hsound.rearrange ‹_›⟩
      · exact ⟨_, rfl, hsound⟩
  have hbreaks : ∀ ending operation, Inv ending → ¬ Comparable string ending operation →
      ¬ Survives (step string ending operation) := by
    rintro _ operation ⟨storage, rfl, hsound⟩ hnot
    cases operation with
    | load loader =>
      have hends := load_ends hsound (not_and_or.mp hnot |>.imp not_not.mp not_not.mp)
      rintro ⟨after, hafter⟩
      rw [step] at hafter
      cases hload : storage.load string loader with
      | returns value => exact hends ⟨value, hload⟩
      | terminates exception => simp [hload] at hafter
      | undefined => simp [hload] at hafter
    | assignRows rows => exact absurd trivial hnot
    | rearrange entries => exact absurd trivial hnot
  exact meets_iff_forall_prefix hinv hkeeps hbreaks ⟨_, rfl, sound_instantiate maxCacheSize rows⟩

def alike : Floats := ⟨Unit, fun _ _ => 0, fun _ => 0, fun _ _ _ => rfl⟩

def single (name : CString) (i : Int32) : AnyKey alike :=
  ⟨[.other ((Abstract.instantiate .Integer name 4 .CanNotBeNull).call (.setInteger i))],
    List.nodup_singleton _⟩

/-- The keys of two classes, with one column each. -/
def classKeys (key : Nat) : AnyKey alike :=
  if key = 0 then single DataSet.id 1 else single DataSet.code 1

def loads : List (Operation alike Unit) :=
  [.load ⟨0, classKeys 0, false, .works⟩, .load ⟨1, classKeys 1, false, .works⟩]

/-- The hash of a key leaves out the names of its columns, so the keys of two classes meet. -/
theorem not_survives : ¬ ∀ (string : Bytes → UInt64) (maxCacheSize : Int32)
    (keys : Nat → AnyKey alike) (rows : AnyKey alike → Option Unit)
    (operations : List (Operation alike Unit)),
    Survives (run (step string) (.returns (.instantiate maxCacheSize keys rows)) operations) := by
  intro h
  have hends : ¬ Survives (run (step fun _ => 0)
      (.returns (.instantiate 2 classKeys fun _ => some ())) loads) := by
    decide +kernel
  exact hends (h (fun _ => 0) 2 classKeys (fun _ => some ()) loads)

end TheStorage

end Coffee.Persistence
