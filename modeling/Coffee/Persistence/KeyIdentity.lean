import Coffee.Persistence.Storage
import Coffee.Persistence.PrimaryKey

/-! # Keys behind the cache

The cache compares keys by what they hold at the time of a call, while its map keeps the code of what
they held when their pairs were stored. A hit is right, and an eviction finds its own entry, as long
as no caller assigns a cached key in a way that sets the two against each other.
-/

namespace Coffee.Persistence.Storage

open Coffee.Library Coffee.Basis

variable {V M : Type}

def cachedCode (hasher : Hasher V) (_ : Nat) (cached : Cached V) : UInt64 :=
  hasher.hash cached.cachedFor

/-- The key of a pair holds the value that the pair was stored for. -/
def Current (hasher : Hasher V) (keys : Nat → V) (pair : Nat × Cached V) : Prop :=
  hasher.equal (keys pair.1) pair.2.cachedFor = true

/-- A key that keeps the code of its pair keeps its value too. -/
structure Consistent (hasher : Hasher V) (maxSize : Int32) (storage : Storage V M) : Prop where
  agrees : storage.m_cache.Agrees (cachedCode hasher)
  honest : ∀ pair ∈ storage.m_cache.pairs,
    hasher.hash (storage.keys pair.1) = hasher.hash pair.2.cachedFor →
      Current hasher storage.keys pair
  maxSize_eq : storage.m_cache.m_maxSize = maxSize
  bound : storage.m_cache.size ≤ maxSize.toInt.toNat

/-- A hit of the cache is a pair that was stored for the value that the key holds. -/
def NoConfusion (hasher : Hasher V) (storage : Storage V M) : Prop :=
  ∀ key node cache, storage.m_cache.find (keyHasher hasher storage.keys) key =
      some (some node, cache) →
    hasher.equal (storage.keys key) node.value.cachedFor = true

/-- The oldest pair can be found by its key, and no other pair is found in its place. -/
def OldestCurrent (hasher : Hasher V) (storage : Storage V M) : Prop :=
  ∀ oldest ∈ storage.m_cache.pairs.head?,
    Current hasher storage.keys oldest ∧
      ∀ other ∈ storage.m_cache.pairs.tail, Current hasher storage.keys other →
        hasher.equal (storage.keys oldest.1) (storage.keys other.1) = false

/-- No key of a cached pair is given another value with the code of the pair, and a load that evicts
finds the oldest pair by its key. -/
def KeepsKeys (hasher : Hasher V) (storage : Storage V M) : Operation V M → Prop
  | .assign key value => ∀ pair ∈ storage.m_cache.pairs, pair.1 = key →
      hasher.hash value = hasher.hash pair.2.cachedFor →
        hasher.equal value pair.2.cachedFor = true
  | .load key _ service => (storage.retrieve key service).isOk = true →
      storage.m_cache.lookup (keyHasher hasher storage.keys) key = none →
        storage.m_cache.isFull = true → OldestCurrent hasher storage
  | .save object _ _ _ => object < storage.objects.length
  | _ => True

instance (hasher : Hasher V) (keys : Nat → V) (pair : Nat × Cached V) :
    Decidable (Current hasher keys pair) :=
  inferInstanceAs (Decidable (hasher.equal (keys pair.1) pair.2.cachedFor = true))

instance (hasher : Hasher V) (storage : Storage V M) : Decidable (OldestCurrent hasher storage) :=
  inferInstanceAs (Decidable (∀ oldest ∈ storage.m_cache.pairs.head?,
    Current hasher storage.keys oldest ∧
      ∀ other ∈ storage.m_cache.pairs.tail, Current hasher storage.keys other →
        hasher.equal (storage.keys oldest.1) (storage.keys other.1) = false))

instance (hasher : Hasher V) (storage : Storage V M) :
    (operation : Operation V M) → Decidable (KeepsKeys hasher storage operation)
  | .assign key value => inferInstanceAs (Decidable (∀ pair ∈ storage.m_cache.pairs, pair.1 = key →
      hasher.hash value = hasher.hash pair.2.cachedFor →
        hasher.equal value pair.2.cachedFor = true))
  | .load key _ service => inferInstanceAs (Decidable ((storage.retrieve key service).isOk = true →
      storage.m_cache.lookup (keyHasher hasher storage.keys) key = none →
        storage.m_cache.isFull = true → OldestCurrent hasher storage))
  | .save object _ _ _ => inferInstanceAs (Decidable (object < storage.objects.length))
  | .erase _ _ _ | .createObject _ _ | .setMembers _ _ | .commit | .rollback =>
    inferInstanceAs (Decidable True)

variable {hasher : LawfulHasher V} {maxSize : Int32} {storage : Storage V M} {key : Nat}

theorem consistent_instantiate (hasher : LawfulHasher V) (maxSize : Int32) (keys : Nat → V)
    (rows : V → Option M) :
    Consistent hasher.toHasher maxSize (instantiate maxSize keys rows) where
  agrees := Cache.agrees_instantiate maxSize
  honest := fun _ h => absurd h List.not_mem_nil
  maxSize_eq := rfl
  bound := Nat.zero_le _

theorem Consistent.length_le (h : Consistent hasher.toHasher maxSize storage) :
    storage.m_cache.m_values.length ≤ maxSize.toInt.toNat := h.agrees.size_eq ▸ h.bound

theorem Consistent.known (h : Consistent hasher.toHasher maxSize storage) {ii : Nat}
    (hlookup : storage.m_cache.lookup (keyHasher hasher.toHasher storage.keys) key = some ii) :
    ∃ v₁ node v₂, storage.m_cache.m_values = v₁ ++ node :: v₂ ∧
      storage.m_cache.m_quickAccess[ii]? = some (node.entry (cachedCode hasher.toHasher)) ∧
      hasher.equal (storage.keys key) (storage.keys node.key) = true ∧
      Current hasher.toHasher storage.keys (node.key, node.value) := by
  obtain ⟨v₁, node, v₂, hsplit, hii, hcode, hsame⟩ := Cache.lookup_eq_some h.agrees hlookup
  have hhash : hasher.hash (storage.keys node.key) = hasher.hash node.value.cachedFor :=
    (hasher.hash_eq _ _ hsame).symm.trans hcode.symm
  have hmem : (node.key, node.value) ∈ storage.m_cache.pairs := by
    rw [Cache.pairs, hsplit]
    simp
  exact ⟨v₁, node, v₂, hsplit, hii, hsame, h.honest _ hmem hhash⟩

theorem Consistent.noConfusion (h : Consistent hasher.toHasher maxSize storage) :
    NoConfusion hasher.toHasher storage := by
  intro key node cache hfind
  cases hlookup : storage.m_cache.lookup (keyHasher hasher.toHasher storage.keys) key with
  | none =>
    rw [Cache.Agrees.find_none hlookup] at hfind
    cases hfind
  | some ii =>
    obtain ⟨v₁, found, v₂, hsplit, hii, hsame, hcurrent⟩ := h.known hlookup
    obtain ⟨id, after, hfound, -⟩ := h.agrees.find_some hlookup hsplit hii
    rw [hfound] at hfind
    cases hfind
    exact hasher.trans _ _ _ hsame hcurrent

/-- The pairs of the cache may be reordered, renumbered and dropped. -/
theorem Consistent.of_cache (h : Consistent hasher.toHasher maxSize storage)
    {after : Storage V M} (hagrees : after.m_cache.Agrees (cachedCode hasher.toHasher))
    (hkeys : after.keys = storage.keys) (hpairs : after.m_cache.pairs ⊆ storage.m_cache.pairs)
    (hlength : after.m_cache.m_values.length ≤ storage.m_cache.m_values.length)
    (hmax : after.m_cache.m_maxSize = storage.m_cache.m_maxSize) :
    Consistent hasher.toHasher maxSize after where
  agrees := hagrees
  honest := fun pair hpair hhash => by
    rw [hkeys] at hhash
    rw [hkeys]
    exact h.honest pair (hpairs hpair) hhash
  maxSize_eq := hmax.trans h.maxSize_eq
  bound := by
    rw [hagrees.size_eq]
    exact Nat.le_trans hlength h.length_le

theorem Consistent.frame (h : Consistent hasher.toHasher maxSize storage) {after : Storage V M}
    (hcache : after.m_cache = storage.m_cache) (hkeys : after.keys = storage.keys) :
    Consistent hasher.toHasher maxSize after :=
  h.of_cache (hcache ▸ h.agrees) hkeys (by rw [hcache]; exact List.Subset.refl _)
    (hcache ▸ Nat.le_refl _) (by rw [hcache])

theorem Consistent.find (h : Consistent hasher.toHasher maxSize storage) (key : Nat) :
    ∃ vv m_cache, storage.m_cache.find (keyHasher hasher.toHasher storage.keys) key =
        some (vv, m_cache) ∧
      Consistent hasher.toHasher maxSize { storage with m_cache } ∧
      (vv = none → m_cache = storage.m_cache ∧
        storage.m_cache.lookup (keyHasher hasher.toHasher storage.keys) key = none) := by
  cases hlookup : storage.m_cache.lookup (keyHasher hasher.toHasher storage.keys) key with
  | none => exact ⟨none, storage.m_cache, Cache.Agrees.find_none hlookup, h, fun _ => ⟨rfl, rfl⟩⟩
  | some ii =>
    obtain ⟨v₁, node, v₂, hsplit, hii, -, -⟩ := h.known hlookup
    obtain ⟨id, after, hfind, hagrees, hvalues, hmax⟩ := h.agrees.find_some hlookup hsplit hii
    refine ⟨_, after, hfind, h.of_cache hagrees rfl ?_ ?_ hmax, fun hnone => by cases hnone⟩
    · intro pair hpair
      simp only [Cache.pairs, hvalues, hsplit, List.map_append, List.map_cons, List.map_nil,
        List.mem_append, List.mem_cons, List.not_mem_nil, or_false] at hpair ⊢
      tauto
    · simp only [hvalues, hsplit, List.length_append, List.length_cons, List.length_nil]
      omega

theorem Consistent.isFull_iff (h : Consistent hasher.toHasher maxSize storage)
    (hmax : 1 ≤ maxSize.toInt) :
    storage.m_cache.isFull = true ↔ storage.m_cache.m_values.length = maxSize.toInt.toNat := by
  have hlt := maxSize.toInt_lt
  rw [Cache.isFull, h.agrees.size_eq, h.maxSize_eq, decide_eq_true_eq]
  omega

theorem Consistent.oldest (h : Consistent hasher.toHasher maxSize storage)
    (holdest : OldestCurrent hasher.toHasher storage) {oldest : Cache.Node Nat (Cached V)}
    {rest : List (Cache.Node Nat (Cached V))} (hvalues : storage.m_cache.m_values = oldest :: rest) :
    ∃ ii, storage.m_cache.lookup (keyHasher hasher.toHasher storage.keys) oldest.key = some ii ∧
      storage.m_cache.m_quickAccess[ii]? = some (oldest.entry (cachedCode hasher.toHasher)) := by
  have hpairs : storage.m_cache.pairs =
      (oldest.key, oldest.value) :: rest.map fun node => (node.key, node.value) := by
    rw [Cache.pairs, hvalues, List.map_cons]
  obtain ⟨hcurrent, hother⟩ := holdest (oldest.key, oldest.value) (by rw [hpairs]; rfl)
  rw [hpairs, List.tail_cons] at hother
  cases hlookup : storage.m_cache.lookup (keyHasher hasher.toHasher storage.keys) oldest.key with
  | none =>
    have hself : cachedCode hasher.toHasher oldest.key oldest.value =
        hasher.hash (storage.keys oldest.key) := (hasher.hash_eq _ _ hcurrent).symm
    exact absurd ⟨hself, hasher.refl _⟩
      (Cache.lookup_eq_none h.agrees hlookup oldest (by simp [hvalues]))
  | some ii =>
    obtain ⟨v₁, node, v₂, hsplit, hii, hsame, hnode⟩ := h.known hlookup
    rw [hvalues] at hsplit
    cases v₁ with
    | nil =>
      obtain ⟨rfl, -⟩ := List.cons.inj hsplit
      exact ⟨ii, rfl, hii⟩
    | cons first v₁ =>
      have hmem : (node.key, node.value) ∈ rest.map fun node => (node.key, node.value) := by
        rw [(List.cons.inj hsplit).2]
        simp
      rw [hother _ hmem hnode] at hsame
      cases hsame

theorem Consistent.room (h : Consistent hasher.toHasher maxSize storage) (hmax : 1 ≤ maxSize.toInt)
    (hlookup : storage.m_cache.lookup (keyHasher hasher.toHasher storage.keys) key = none)
    (holdest : storage.m_cache.isFull = true → OldestCurrent hasher.toHasher storage) :
    ∃ m_cache, storage.m_cache.makeRoom (keyHasher hasher.toHasher storage.keys) = some m_cache ∧
      Consistent hasher.toHasher maxSize { storage with m_cache } ∧
      m_cache.m_values.length < maxSize.toInt.toNat ∧
      m_cache.lookup (keyHasher hasher.toHasher storage.keys) key = none := by
  have hlength := h.length_le
  have hiff := h.isFull_iff hmax
  by_cases hfull : storage.m_cache.isFull = true
  · rw [Cache.makeRoom, if_pos hfull]
    rw [← hiff.mp hfull]
    cases hvalues : storage.m_cache.m_values with
    | nil =>
      have hzero := hiff.mp hfull
      rw [hvalues, List.length_nil] at hzero
      omega
    | cons oldest rest =>
      obtain ⟨ii, hfound, hii⟩ := h.oldest (holdest hfull) hvalues
      obtain ⟨after, hevict, hagrees, hrest, hsize, hsubset⟩ := h.agrees.evict hvalues hfound hii
      refine ⟨after, hevict, h.of_cache hagrees rfl ?_ ?_ hsize, ?_,
        Cache.lookup_eq_none_of_subset hlookup hsubset⟩
      · rw [Cache.pairs, Cache.pairs, hrest, hvalues]
        exact List.subset_cons_self _ _
      · simp [hrest, hvalues]
      · simp [hrest]
  · have hne := mt hiff.mpr hfull
    rw [Cache.makeRoom, if_neg hfull]
    exact ⟨storage.m_cache, rfl, h, by omega, hlookup⟩

theorem Consistent.set (h : Consistent hasher.toHasher maxSize storage) (hmax : 1 ≤ maxSize.toInt)
    (hlookup : storage.m_cache.lookup (keyHasher hasher.toHasher storage.keys) key = none)
    (holdest : storage.m_cache.isFull = true → OldestCurrent hasher.toHasher storage)
    (object : Nat) :
    ∃ m_cache, storage.m_cache.set (keyHasher hasher.toHasher storage.keys) key
        ⟨object, storage.keys key⟩ = some m_cache ∧
      Consistent hasher.toHasher maxSize { storage with m_cache } := by
  obtain ⟨room, hroom, hconsistent, hlt, hnone⟩ := h.room hmax hlookup holdest
  refine ⟨room.push (keyHasher hasher.toHasher storage.keys) key ⟨object, storage.keys key⟩,
    by simp [Cache.set, hlookup, hroom], ?_⟩
  have hagrees := hconsistent.agrees.push ⟨object, storage.keys key⟩ hnone rfl
  refine ⟨hagrees, ?_, hconsistent.maxSize_eq, ?_⟩
  · intro pair hpair hhash
    simp only [Cache.pairs, Cache.push, List.map_append, List.map_cons, List.map_nil,
      List.mem_append, List.mem_singleton] at hpair
    rcases hpair with hpair | rfl
    · exact hconsistent.honest pair hpair hhash
    · exact hasher.refl _
  · rw [hagrees.size_eq]
    simpa [Cache.push] using Nat.succ_le_of_lt hlt

theorem Consistent.loadFault (h : Consistent hasher.toHasher maxSize storage)
    (hmax : 1 ≤ maxSize.toInt) {service : Service}
    (hlookup : storage.m_cache.lookup (keyHasher hasher.toHasher storage.keys) key = none)
    (holdest : (storage.retrieve key service).isOk = true →
      storage.m_cache.isFull = true → OldestCurrent hasher.toHasher storage) :
    ∃ result after, storage.loadFault hasher.toHasher key service = some (result, after) ∧
      Consistent hasher.toHasher maxSize after := by
  have hretrieve : ({ storage with m_faultCounter := storage.m_faultCounter + 1 } :
      Storage V M).retrieve key service = storage.retrieve key service := rfl
  simp only [Storage.loadFault, hretrieve]
  cases hmembers : storage.retrieve key service with
  | error exception => exact ⟨_, _, rfl, h.frame rfl rfl⟩
  | ok members =>
    obtain ⟨m_cache, hset, hafter⟩ :=
      h.set hmax hlookup (holdest (by rw [hmembers]; rfl)) storage.objects.length
    simp only [hset, Option.bind_eq_bind, Option.bind_some]
    exact ⟨_, _, rfl, hafter.frame rfl rfl⟩

theorem Consistent.loadHit (h : Consistent hasher.toHasher maxSize storage) (key object : Nat)
    (hasToRefresh : Bool) (service : Service) :
    Consistent hasher.toHasher maxSize (storage.loadHit key object hasToRefresh service).2 := by
  rw [Storage.loadHit]
  split
  · split <;> exact h.frame rfl rfl
  · exact h.frame rfl rfl

theorem Consistent.load (h : Consistent hasher.toHasher maxSize storage) (hmax : 1 ≤ maxSize.toInt)
    {hasToRefresh : Bool} {service : Service}
    (hop : KeepsKeys hasher.toHasher storage (.load key hasToRefresh service)) :
    ∃ result after, storage.load hasher.toHasher key hasToRefresh service = some (result, after) ∧
      Consistent hasher.toHasher maxSize after := by
  obtain ⟨vv, m_cache, hfind, hafter, hmiss⟩ := h.find key
  have hfault (hvv : vv = none) :
      ∃ result after, ({ storage with m_cache } : Storage V M).loadFault hasher.toHasher key service =
          some (result, after) ∧ Consistent hasher.toHasher maxSize after := by
    obtain ⟨rfl, hlookup⟩ := hmiss hvv
    exact h.loadFault hmax hlookup fun hmembers hfull => hop hmembers hlookup hfull
  simp only [Storage.load, hfind, Option.bind_eq_bind, Option.bind_some]
  cases vv with
  | none =>
    cases service with
    | unavailable => exact ⟨_, _, rfl, hafter⟩
    | fails => exact hfault rfl
    | refused => exact hfault rfl
    | works => exact hfault rfl
  | some node =>
    cases service with
    | unavailable => exact ⟨_, _, rfl, hafter⟩
    | fails => exact ⟨_, _, rfl, hafter.loadHit key _ hasToRefresh .fails⟩
    | refused => exact ⟨_, _, rfl, hafter.loadHit key _ hasToRefresh .refused⟩
    | works => exact ⟨_, _, rfl, hafter.loadHit key _ hasToRefresh .works⟩

theorem Consistent.erase (h : Consistent hasher.toHasher maxSize storage) (key : Nat)
    (hasAutoCommit : Bool) (service : Service) :
    ∃ result after,
      storage.erase hasher.toHasher key hasAutoCommit service = some (result, after) ∧
        Consistent hasher.toHasher maxSize after := by
  have herase : ∃ loaded m_cache,
      storage.m_cache.erase (keyHasher hasher.toHasher storage.keys) key = some (loaded, m_cache) ∧
        Consistent hasher.toHasher maxSize { storage with m_cache } := by
    cases hlookup : storage.m_cache.lookup (keyHasher hasher.toHasher storage.keys) key with
    | none => exact ⟨false, storage.m_cache, by simp [Cache.erase, hlookup], h⟩
    | some ii =>
      obtain ⟨v₁, node, v₂, hsplit, hii, -, -⟩ := h.known hlookup
      obtain ⟨after, herase, hagrees, hvalues, hmax⟩ := h.agrees.erase_some hlookup hsplit hii
      refine ⟨true, after, herase, h.of_cache hagrees rfl ?_ ?_ hmax⟩
      · intro pair hpair
        simp only [Cache.pairs, hvalues, hsplit, List.map_append, List.map_cons, List.mem_append,
          List.mem_cons] at hpair ⊢
        tauto
      · simp only [hvalues, hsplit, List.length_append, List.length_cons]
        omega
  obtain ⟨loaded, m_cache, herase, hafter⟩ := herase
  by_cases hguard : service = .unavailable
  · subst hguard
    exact ⟨_, _, rfl, h⟩
  · simp only [Storage.erase, herase, Option.bind_eq_bind, Option.bind_some]
    exact ⟨_, _, rfl, hafter.frame apply_m_cache apply_keys⟩

theorem Consistent.save (h : Consistent hasher.toHasher maxSize storage) {object : Nat}
    (hobject : object < storage.objects.length) (members : M) (hasAutoCommit : Bool)
    (service : Service) :
    ∃ result after,
      storage.save hasher.toHasher object members hasAutoCommit service = some (result, after) ∧
        Consistent hasher.toHasher maxSize after := by
  simp only [Storage.save, List.getElem?_eq_getElem hobject, Option.bind_eq_bind, Option.bind_some]
  exact ⟨_, _, rfl, h.frame apply_m_cache apply_keys⟩

theorem Consistent.assign (h : Consistent hasher.toHasher maxSize storage) {value : V}
    (hop : KeepsKeys hasher.toHasher storage (.assign key value)) :
    Consistent hasher.toHasher maxSize
      { storage with keys := Function.update storage.keys key value } where
  agrees := h.agrees
  honest := fun pair hpair hhash => by
    simp only [Current] at hhash ⊢
    by_cases hkey : pair.1 = key
    · rw [hkey, Function.update_self] at hhash ⊢
      exact hop pair hpair hkey hhash
    · rw [Function.update_of_ne hkey] at hhash ⊢
      exact h.honest pair hpair hhash
  maxSize_eq := h.maxSize_eq
  bound := h.bound

theorem Consistent.step (h : Consistent hasher.toHasher maxSize storage) (hmax : 1 ≤ maxSize.toInt)
    {operation : Operation V M} (hop : KeepsKeys hasher.toHasher storage operation) :
    ∃ after, storage.step hasher.toHasher operation = some after ∧
      Consistent hasher.toHasher maxSize after := by
  cases operation with
  | load key hasToRefresh service =>
    obtain ⟨result, after, hload, hafter⟩ := h.load hmax hop
    exact ⟨after, by simp [Storage.step, hload], hafter⟩
  | save object members hasAutoCommit service =>
    obtain ⟨result, after, hsave, hafter⟩ := h.save hop members hasAutoCommit service
    exact ⟨after, by simp [Storage.step, hsave], hafter⟩
  | erase key hasAutoCommit service =>
    obtain ⟨result, after, herase, hafter⟩ := h.erase key hasAutoCommit service
    exact ⟨after, by simp [Storage.step, herase], hafter⟩
  | assign key value => exact ⟨_, rfl, h.assign hop⟩
  | createObject key members => exact ⟨_, rfl, h.frame rfl rfl⟩
  | setMembers object members => exact ⟨_, rfl, h.frame rfl rfl⟩
  | commit => exact ⟨_, rfl, h.frame rfl rfl⟩
  | rollback => exact ⟨_, rfl, h.frame rfl rfl⟩

/-- As long as no call sets a key against its pair, the cache confuses no two key values and its list
and its map stay in agreement, over the whole history. -/
theorem noConfusion_of_keepsKeys (hasher : LawfulHasher V) {maxSize : Int32}
    (hmax : 1 ≤ maxSize.toInt) (keys : Nat → V) (rows : V → Option M)
    {operations : List (Operation V M)}
    (hops : Runs.Meets? (step hasher.toHasher) (KeepsKeys hasher.toHasher)
      (instantiate maxSize keys rows) operations) :
    ∃ storage, Runs.run? (step hasher.toHasher) (instantiate maxSize keys rows) operations =
        some storage ∧
      NoConfusion hasher.toHasher storage ∧ storage.m_cache.Agrees (cachedCode hasher.toHasher) ∧
      storage.m_cache.size ≤ maxSize.toInt.toNat := by
  obtain ⟨storage, hrun, h⟩ := hops.invariant (fun _ _ h hop => h.step hmax hop)
    (consistent_instantiate hasher maxSize keys rows)
  exact ⟨storage, hrun, h.noConfusion, h.agrees, h.bound⟩

section Customers

def customer (branch number : Int32) : {key : List Int32 // key.length = 2} := ⟨[branch, number], rfl⟩

def customers (key : {key : List Int32 // key.length = 2}) : Option (List Int32) := some key.val

theorem noConfusion_of_keepsKeys_customers :
    ∃ storage, Runs.run? (step (PrimaryKey.integers 2).toHasher)
        (instantiate 1 (fun _ => customer 1 2) customers)
        [.load 0 false .works, .assign 1 (customer 2 1), .load 1 false .works, .load 1 true .works,
          .erase 1 true .works, .rollback] = some storage ∧
      NoConfusion (PrimaryKey.integers 2).toHasher storage ∧
      storage.m_cache.Agrees (cachedCode (PrimaryKey.integers 2).toHasher) ∧
      storage.m_cache.size ≤ 1 :=
  noConfusion_of_keepsKeys (PrimaryKey.integers 2) (by decide) _ _ (by decide +kernel)

/-- A reused key with its columns swapped keeps its code and hits the object of the old key; a reused
key with another code leaves its entry behind when its pair is evicted. -/
theorem not_noConfusion_reused :
    (∃ storage, Runs.run? (step (PrimaryKey.integers 2).toHasher)
        (instantiate 1 (fun _ => customer 1 2) customers)
        [.load 0 false .works, .assign 0 (customer 2 1)] = some storage ∧
      ¬ NoConfusion (PrimaryKey.integers 2).toHasher storage) ∧
    ∃ storage, Runs.run? (step (PrimaryKey.integers 2).toHasher)
        (instantiate 1 (fun _ => customer 1 2) customers)
        [.load 0 false .works, .assign 0 (customer 1 7), .load 0 false .works] = some storage ∧
      ¬ storage.m_cache.Agrees (cachedCode (PrimaryKey.integers 2).toHasher) := by
  constructor
  · have hhit : ((Runs.run? (step (PrimaryKey.integers 2).toHasher)
        (instantiate 1 (fun _ => customer 1 2) customers)
        [.load 0 false .works, .assign 0 (customer 2 1)]).bind fun storage =>
          (storage.m_cache.find (keyHasher (PrimaryKey.integers 2).toHasher storage.keys) 0).map
            fun found => (found.1.map fun node => node.value.cachedFor, storage.keys 0)) =
        some (some (customer 1 2), customer 2 1) := by decide +kernel
    obtain ⟨storage, hrun, hhit⟩ := Option.bind_eq_some_iff.mp hhit
    obtain ⟨⟨vv, cache⟩, hfind, hfound⟩ := Option.map_eq_some_iff.mp hhit
    obtain ⟨hnode, hkey⟩ := Prod.mk.inj hfound
    obtain ⟨node, rfl, hcached⟩ := Option.map_eq_some_iff.mp hnode
    refine ⟨storage, hrun, fun h => ?_⟩
    have hsame := h 0 node cache hfind
    rw [hkey, hcached] at hsame
    exact absurd hsame (by decide)
  · have hsize : ((Runs.run? (step (PrimaryKey.integers 2).toHasher)
        (instantiate 1 (fun _ => customer 1 2) customers)
        [.load 0 false .works, .assign 0 (customer 1 7), .load 0 false .works]).map fun storage =>
          (storage.m_cache.size, storage.m_cache.m_values.length)) = some (2, 1) := by
      decide +kernel
    obtain ⟨storage, hrun, hsize⟩ := Option.map_eq_some_iff.mp hsize
    obtain ⟨hmap, hlist⟩ := Prod.mk.inj hsize
    refine ⟨storage, hrun, fun h => ?_⟩
    rw [h.size_eq, hlist] at hmap
    cases hmap

end Customers

end Coffee.Persistence.Storage
