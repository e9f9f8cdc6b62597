import Coffee.Persistence.Storage
import Coffee.Persistence.PrimaryKey

/-! # Reading what was written

With keys that are not assigned, the cache of a storage is the recency list of its key pointers. A
load then gives what the last successful save of its key left, as long as every save that succeeds
on a cached key is made with the cached object, and neither the row nor the cached object is changed
or taken back otherwise.
-/

namespace Coffee.Persistence.Storage

open Coffee.Library Coffee.Basis

variable {V M : Type}

/-- Pointers to keys that are not assigned. -/
def pointerHasher (hasher : LawfulHasher V) (keys : Nat → V) : LawfulHasher Nat where
  toHasher := keyHasher hasher.toHasher keys
  refl key := hasher.refl (keys key)
  symm a b := hasher.symm (keys a) (keys b)
  trans a b c := hasher.trans (keys a) (keys b) (keys c)
  hash_eq a b := hasher.hash_eq (keys a) (keys b)

/-- The last successful save or erase of `value`, if there was one, left `row`. -/
def Left (storage : Storage V M) (value : V) (row : Option M) : Prop :=
  ∀ last ∈ storage.written value, last = row

instance [DecidableEq M] (storage : Storage V M) (value : V) (row : Option M) :
    Decidable (Left storage value row) :=
  inferInstanceAs (Decidable (∀ last ∈ storage.written value, last = row))

def PairUpToDate (hasher : Hasher V) (storage : Storage V M) (pair : Nat × Cached V) : Prop :=
  ∃ cell, storage.objects[pair.2.object]? = some cell ∧
    hasher.equal (storage.keys pair.1) (storage.keys cell.m_primaryKey) = true ∧
    Left storage (storage.keys pair.1) (some cell.members)

/-- The table holds what was written, and so does what a rollback would bring back when nothing is
left to settle. -/
structure Recorded (hasher : LawfulHasher V) (storage : Storage V M) : Prop where
  rows : ∀ value, Left storage value (storage.rows value)
  kept : storage.settled = true → ∀ value, Left storage value (storage.kept value)
  congr : ∀ a b, hasher.equal a b = true → storage.written a = storage.written b

structure UpToDate (hasher : LawfulHasher V) (maxSize : Int32) (storage : Storage V M) : Prop where
  refines : Cache.Refines (pointerHasher hasher storage.keys) maxSize storage.m_cache
    storage.m_cache.pairs
  cached : ∀ pair ∈ storage.m_cache.pairs, PairUpToDate hasher.toHasher storage pair
  recorded : Recorded hasher storage

/-- What a load of `key` gives agrees with what was last written for it, and a load that the database
serves gives an object when a save was the last to write. -/
def Answers (storage : Storage V M) (key : Nat) (service : Service)
    (result : Except StorageException Nat) (after : Storage V M) : Prop :=
  ∀ row, storage.written (storage.keys key) = some row →
    (∀ object, result = .ok object →
      ∃ cell, after.objects[object]? = some cell ∧ row = some cell.members) ∧
    (service = .works → row.isSome = true → ∃ object, result = .ok object)

def ReadsOwnWrites (hasher : Hasher V) (storage : Storage V M) : Prop :=
  ∀ key service, ∃ result after, storage.load hasher key false service = some (result, after) ∧
    Answers storage key service result after

/-- The members of a cached object are set to nothing but what was last written for its key. -/
def Leaves (storage : Storage V M) (object : Nat) (members : M) : Prop :=
  ∀ pair ∈ storage.m_cache.pairs, pair.2.object = object →
    Left storage (storage.keys pair.1) (some members)

/-- A save that succeeds on a cached key is made with the cached object or with its members. A call
whose commit is refused has changed no row that was written otherwise, and a rollback takes no
successful call back. Nothing else changes a cached object; keys are not assigned and hits are not
refreshed. -/
def WritesThrough (hasher : Hasher V) (storage : Storage V M) : Operation V M → Prop
  | .load _ hasToRefresh _ => hasToRefresh = false
  | .save object members _ service => ∃ cell ∈ storage.objects[object]?,
      if service = .works then
        ∀ pair ∈ storage.m_cache.pairs,
          hasher.equal (storage.keys cell.m_primaryKey) (storage.keys pair.1) = true →
            pair.2.object ≠ object →
              storage.objects[pair.2.object]?.map Object.members = some members
      else Leaves storage object members ∧
        (service = .refused → Left storage (storage.keys cell.m_primaryKey) (some members))
  | .erase key _ service => service = .refused → Left storage (storage.keys key) none
  | .assign _ _ => False
  | .createObject _ _ => True
  | .setMembers object members => Leaves storage object members
  | .commit => True
  | .rollback => storage.settled = true

instance [DecidableEq M] (storage : Storage V M) (object : Nat) (members : M) :
    Decidable (Leaves storage object members) :=
  inferInstanceAs (Decidable (∀ pair ∈ storage.m_cache.pairs, pair.2.object = object →
    Left storage (storage.keys pair.1) (some members)))

instance [DecidableEq M] (hasher : Hasher V) (storage : Storage V M) :
    (operation : Operation V M) → Decidable (WritesThrough hasher storage operation)
  | .load _ hasToRefresh _ => inferInstanceAs (Decidable (hasToRefresh = false))
  | .save object members _ service => inferInstanceAs (Decidable (∃ cell ∈ storage.objects[object]?,
      if service = .works then
        ∀ pair ∈ storage.m_cache.pairs,
          hasher.equal (storage.keys cell.m_primaryKey) (storage.keys pair.1) = true →
            pair.2.object ≠ object →
              storage.objects[pair.2.object]?.map Object.members = some members
      else Leaves storage object members ∧
        (service = .refused → Left storage (storage.keys cell.m_primaryKey) (some members))))
  | .erase key _ service =>
    inferInstanceAs (Decidable (service = .refused → Left storage (storage.keys key) none))
  | .assign _ _ => inferInstanceAs (Decidable False)
  | .createObject _ _ | .commit => inferInstanceAs (Decidable True)
  | .setMembers object members => inferInstanceAs (Decidable (Leaves storage object members))
  | .rollback => inferInstanceAs (Decidable (storage.settled = true))

variable {hasher : LawfulHasher V} {maxSize : Int32} {storage : Storage V M} {key : Nat}

theorem upToDate_instantiate (hasher : LawfulHasher V) (maxSize : Int32) (keys : Nat → V)
    (rows : V → Option M) : UpToDate hasher maxSize (instantiate maxSize keys rows) where
  refines := Cache.refines_instantiate _ maxSize
  cached := fun _ h => absurd h List.not_mem_nil
  recorded := ⟨fun _ _ h => (by cases h), fun _ _ _ h => (by cases h), fun _ _ _ => rfl⟩

theorem Recorded.frame (h : Recorded hasher storage) {after : Storage V M}
    (hrows : after.rows = storage.rows) (hkept : after.kept = storage.kept)
    (hwritten : after.written = storage.written) (hsettled : after.settled = storage.settled) :
    Recorded hasher after where
  rows := by simpa only [Left, hrows, hwritten] using h.rows
  kept := by simpa only [Left, hkept, hwritten, hsettled] using h.kept
  congr := by simpa only [hwritten] using h.congr

theorem Recorded.commit (h : Recorded hasher storage) : Recorded hasher storage.commit :=
  ⟨h.rows, fun _ => h.rows, h.congr⟩

theorem Recorded.rollback (h : Recorded hasher storage) (hsettled : storage.settled = true) :
    Recorded hasher storage.rollback := ⟨h.kept hsettled, h.kept, h.congr⟩

theorem UpToDate.of_cache (h : UpToDate hasher maxSize storage) {after : Storage V M}
    (hrefines : Cache.Refines (pointerHasher hasher storage.keys) maxSize after.m_cache
      after.m_cache.pairs)
    (hpairs : after.m_cache.pairs ⊆ storage.m_cache.pairs) (hkeys : after.keys = storage.keys)
    (hobjects : storage.objects <+: after.objects) (hrows : after.rows = storage.rows)
    (hkept : after.kept = storage.kept) (hwritten : after.written = storage.written)
    (hsettled : after.settled = storage.settled) : UpToDate hasher maxSize after where
  refines := hkeys ▸ hrefines
  cached := fun pair hpair => by
    obtain ⟨cell, hcell, hkey, hleft⟩ := h.cached pair (hpairs hpair)
    obtain ⟨more, hmore⟩ := hobjects
    obtain ⟨hlt, -⟩ := List.getElem?_eq_some_iff.mp hcell
    refine ⟨cell, ?_, by rw [hkeys]; exact hkey, by rw [Left, hkeys, hwritten]; exact hleft⟩
    rw [← hmore, List.getElem?_append_left hlt]
    exact hcell
  recorded := h.recorded.frame hrows hkept hwritten hsettled

theorem UpToDate.find (h : UpToDate hasher maxSize storage) (key : Nat) :
    ∃ vv m_cache, storage.m_cache.find (keyHasher hasher.toHasher storage.keys) key =
        some (vv, m_cache) ∧
      UpToDate hasher maxSize { storage with m_cache } ∧
      (∀ node, vv = some node → PairUpToDate hasher.toHasher storage (node.key, node.value) ∧
        hasher.equal (storage.keys key) (storage.keys node.key) = true) ∧
      (vv = none → ∀ pair ∈ m_cache.pairs,
        hasher.equal (storage.keys key) (storage.keys pair.1) = false) := by
  obtain ⟨vv, m_cache, hfind, hvv, hrefines⟩ := h.refines.find key
  have hpairs := hrefines.pairs_eq
  refine ⟨vv, m_cache, hfind, ?_, ?_, ?_⟩
  · refine h.of_cache (hpairs.symm ▸ hrefines) ?_ rfl (List.prefix_refl _) rfl rfl rfl rfl
    exact hpairs.symm ▸ Recency.find_subset key _
  · rintro node rfl
    obtain ⟨hmem, hsame⟩ := Recency.mem_of_find hvv.symm
    exact ⟨h.cached _ hmem, hsame⟩
  · rintro rfl
    obtain ⟨hsnd, hnew⟩ := Recency.find_eq_none hvv.symm
    rw [hpairs, hsnd]
    exact hnew

theorem answers_unavailable {exception : StorageException} {after : Storage V M} :
    Answers storage key .unavailable (.error exception) after :=
  fun _ _ => ⟨fun _ hok => (by cases hok), fun hworks => (by cases hworks)⟩

theorem UpToDate.loadFault (h : UpToDate hasher maxSize storage) (hmax : 1 ≤ maxSize.toInt)
    (hnew : ∀ pair ∈ storage.m_cache.pairs,
      hasher.equal (storage.keys key) (storage.keys pair.1) = false) (service : Service) :
    ∃ result after, storage.loadFault hasher.toHasher key service = some (result, after) ∧
      UpToDate hasher maxSize after ∧ Answers storage key service result after := by
  have hretrieve : ({ storage with m_faultCounter := storage.m_faultCounter + 1 } :
      Storage V M).retrieve key service = storage.retrieve key service := rfl
  simp only [Storage.loadFault, hretrieve]
  cases hmembers : storage.retrieve key service with
  | error exception =>
    refine ⟨_, _, rfl,
      h.of_cache h.refines (List.Subset.refl _) rfl (List.prefix_refl _) rfl rfl rfl rfl, ?_⟩
    refine fun row hrow => ⟨fun object hok => (by cases hok), fun hworks hsome => ?_⟩
    obtain ⟨members, rfl⟩ := Option.isSome_iff_exists.mp hsome
    rw [retrieve_eq_ok.mpr ⟨hworks, (h.recorded.rows _ _ hrow).symm⟩] at hmembers
    cases hmembers
  | ok members =>
    obtain ⟨-, hrow⟩ := retrieve_eq_ok.mp hmembers
    have hlast : Left storage (storage.keys key) (some members) := hrow ▸ h.recorded.rows _
    have hget : (storage.objects ++ [⟨key, members⟩])[storage.objects.length]? =
        some ⟨key, members⟩ := List.getElem?_concat_length
    obtain ⟨m_cache, hset, hrefines⟩ :=
      h.refines.set hmax key ⟨storage.objects.length, storage.keys key⟩
    have hset' : storage.m_cache.set (keyHasher hasher.toHasher storage.keys) key
      ⟨storage.objects.length, storage.keys key⟩ = some m_cache := hset
    simp only [hset', Option.bind_eq_bind, Option.bind_some]
    refine ⟨_, _, rfl,
      ⟨hrefines.pairs_eq.symm ▸ hrefines, ?_, h.recorded.frame rfl rfl rfl rfl⟩, ?_⟩
    · intro pair hpair
      rw [hrefines.pairs_eq] at hpair
      rcases Recency.mem_set_of_new hnew hpair with hpair | rfl
      · obtain ⟨cell, hcell, hkey, hwritten⟩ := h.cached pair hpair
        obtain ⟨hlt, -⟩ := List.getElem?_eq_some_iff.mp hcell
        exact ⟨cell, (List.getElem?_append_left hlt).trans hcell, hkey, hwritten⟩
      · exact ⟨⟨key, members⟩, hget, hasher.refl _, hlast⟩
    · intro row hwritten
      refine ⟨fun object hok => ?_, fun _ _ => ⟨_, rfl⟩⟩
      cases hok
      exact ⟨⟨key, members⟩, hget, hlast row hwritten⟩

theorem UpToDate.load (h : UpToDate hasher maxSize storage) (hmax : 1 ≤ maxSize.toInt) (key : Nat)
    (service : Service) :
    ∃ result after, storage.load hasher.toHasher key false service = some (result, after) ∧
      UpToDate hasher maxSize after ∧ Answers storage key service result after := by
  obtain ⟨vv, m_cache, hfind, hafter, hhit, hmiss⟩ := h.find key
  simp only [Storage.load, hfind, Option.bind_eq_bind, Option.bind_some]
  cases vv with
  | none =>
    cases service with
    | unavailable =>
      exact ⟨_, _, rfl, hafter, answers_unavailable⟩
    | fails => exact hafter.loadFault hmax (hmiss rfl) .fails
    | refused => exact hafter.loadFault hmax (hmiss rfl) .refused
    | works => exact hafter.loadFault hmax (hmiss rfl) .works
  | some node =>
    obtain ⟨⟨cell, hcell, -, hlast⟩, hsame⟩ := hhit node rfl
    have hanswers (service : Service) : Answers storage key service (.ok node.value.object)
        { storage with m_cache, m_hitCounter := storage.m_hitCounter + 1 } := by
      intro row hrow
      refine ⟨fun object hok => ?_, fun _ _ => ⟨_, rfl⟩⟩
      cases hok
      exact ⟨cell, hcell, hlast row ((h.recorded.congr _ _ hsame).symm.trans hrow)⟩
    have hcounted : UpToDate hasher maxSize
        { storage with m_cache, m_hitCounter := storage.m_hitCounter + 1 } :=
      hafter.of_cache hafter.refines (List.Subset.refl _) rfl (List.prefix_refl _) rfl rfl rfl rfl
    cases service with
    | unavailable =>
      exact ⟨_, _, rfl, hafter, answers_unavailable⟩
    | fails => exact ⟨_, _, rfl, hcounted, hanswers .fails⟩
    | refused => exact ⟨_, _, rfl, hcounted, hanswers .refused⟩
    | works => exact ⟨_, _, rfl, hcounted, hanswers .works⟩

theorem UpToDate.readsOwnWrites (h : UpToDate hasher maxSize storage) (hmax : 1 ≤ maxSize.toInt) :
    ReadsOwnWrites hasher.toHasher storage := by
  intro key service
  obtain ⟨result, after, hload, -, hanswers⟩ := h.load hmax key service
  exact ⟨result, after, hload, hanswers⟩

theorem assignRow_congr {R : Type} {rows : V → R} (value : V) (row : R) {a b : V}
    (hab : hasher.equal a b = true) (hrows : rows a = rows b) :
    assignRow hasher.toHasher rows value row a = assignRow hasher.toHasher rows value row b := by
  have hiff : hasher.equal value a = hasher.equal value b := by
    rw [Bool.eq_iff_iff]
    exact ⟨fun h => hasher.trans _ _ _ h hab, fun h => hasher.trans _ _ _ h (hasher.symm _ _ hab)⟩
  rw [assignRow, assignRow, hiff, hrows]

theorem left_assignRow {value : V} {row : Option M} {rows : V → Option M}
    (hrows : ∀ value, Left storage value (rows value))
    (hleft : ∀ other, hasher.equal value other = true → Left storage other row) (other : V) :
    Left storage other (assignRow hasher.toHasher rows value row other) := by
  rw [assignRow]
  split
  · next hequal => exact hleft other hequal
  · exact hrows other

theorem Recorded.works (h : Recorded hasher storage) (value : V) (row : Option M) :
    Recorded hasher { storage with
      rows := assignRow hasher.toHasher storage.rows value row
      written := assignRow hasher.toHasher storage.written value (some row)
      settled := false } where
  rows := fun other last hlast => by
    simp only [assignRow] at hlast ⊢
    split at hlast
    · next hequal =>
      rw [if_pos hequal]
      exact (Option.some.inj hlast).symm
    · next hequal =>
      rw [if_neg hequal]
      exact h.rows other last hlast
  kept := fun hsettled => by cases hsettled
  congr := fun a b hab => assignRow_congr value _ hab (h.congr a b hab)

/-- What a statement on `value` and the commits behind it do to the table. -/
theorem Recorded.apply (h : Recorded hasher storage) {value : V} {row : Option M}
    {hasAutoCommit : Bool} {service : Service}
    (hrefused : service = .refused → Left storage value row) :
    Recorded hasher (storage.apply hasher.toHasher value row hasAutoCommit service).2 := by
  cases service with
  | unavailable => exact h
  | fails => exact h
  | refused =>
    refine ⟨left_assignRow h.rows fun other hequal last hlast => ?_, h.kept, h.congr⟩
    exact hrefused rfl last ((h.congr _ _ hequal).trans hlast)
  | works =>
    cases hasAutoCommit with
    | false => exact h.works value row
    | true => exact (h.works value row).commit

/-- What a statement on `value` must find in the cache. -/
theorem UpToDate.apply (storage : Storage V M)
    (hrefines : Cache.Refines (pointerHasher hasher storage.keys) maxSize storage.m_cache
      storage.m_cache.pairs) (hrecorded : Recorded hasher storage) {value : V}
    {row : Option M} {hasAutoCommit : Bool} {service : Service}
    (hrefused : service = .refused → Left storage value row)
    (hcached : ∀ pair ∈ storage.m_cache.pairs, ∃ cell,
      storage.objects[pair.2.object]? = some cell ∧
      hasher.equal (storage.keys pair.1) (storage.keys cell.m_primaryKey) = true ∧
      if service = .works ∧ hasher.equal value (storage.keys pair.1) = true then
        row = some cell.members
      else Left storage (storage.keys pair.1) (some cell.members)) :
    UpToDate hasher maxSize (storage.apply hasher.toHasher value row hasAutoCommit service).2 where
  refines := by
    rw [apply_keys, apply_m_cache]
    exact hrefines
  cached := fun pair hpair => by
    rw [apply_m_cache] at hpair
    obtain ⟨cell, hcell, hkey, hleft⟩ := hcached pair hpair
    refine ⟨cell, by rw [apply_objects]; exact hcell, by rw [apply_keys]; exact hkey, ?_⟩
    rw [Left, apply_keys, apply_written]
    by_cases hworks : service = .works
    · rw [if_pos hworks, assignRow]
      by_cases hequal : hasher.equal value (storage.keys pair.1) = true
      · rw [if_pos ⟨hworks, hequal⟩] at hleft
        rw [if_pos hequal, hleft]
        exact fun last hlast => (Option.some.inj hlast).symm
      · rw [if_neg fun h => hequal h.2] at hleft
        rw [if_neg hequal]
        exact hleft
    · rw [if_neg fun h => hworks h.1] at hleft
      rw [if_neg hworks]
      exact hleft
  recorded := hrecorded.apply hrefused

theorem UpToDate.erase (h : UpToDate hasher maxSize storage) {hasAutoCommit : Bool}
    {service : Service}
    (hop : WritesThrough hasher.toHasher storage (.erase key hasAutoCommit service)) :
    ∃ result after,
      storage.erase hasher.toHasher key hasAutoCommit service = some (result, after) ∧
        UpToDate hasher maxSize after := by
  obtain ⟨m_cache, herase, hrefines⟩ := h.refines.erase key
  generalize (Recency.erase (pointerHasher hasher storage.keys).equal key
    storage.m_cache.pairs).1 = loaded at herase
  have herase' : storage.m_cache.erase (keyHasher hasher.toHasher storage.keys) key =
      some (loaded, m_cache) := herase
  have hgone : ∀ pair ∈ m_cache.pairs, pair ∈ storage.m_cache.pairs ∧
      hasher.equal (storage.keys key) (storage.keys pair.1) = false := by
    intro pair hpair
    rw [hrefines.pairs_eq] at hpair
    exact h.refines.distinct.mem_erase (pointerHasher hasher storage.keys).symm
      (pointerHasher hasher storage.keys).trans hpair
  by_cases hguard : service = .unavailable
  · subst hguard
    exact ⟨_, _, rfl, h⟩
  · simp only [Storage.erase, herase', Option.bind_eq_bind, Option.bind_some]
    refine ⟨_, _, rfl, ?_⟩
    apply UpToDate.apply
    · exact hrefines.pairs_eq.symm ▸ hrefines
    · exact h.recorded.frame rfl rfl rfl rfl
    · exact hop
    · intro pair hpair
      obtain ⟨hmem, hne⟩ := hgone pair hpair
      obtain ⟨cell, hcell, hkey, hleft⟩ := h.cached pair hmem
      exact ⟨cell, hcell, hkey, by rw [if_neg (by simp [hne])]; exact hleft⟩

theorem setMembers_getElem? (object : Nat) (members : M) (other : Nat) :
    (storage.setMembers object members).objects[other]? =
      storage.objects[other]?.map fun cell =>
        if object = other then { cell with members } else cell := by
  rw [setMembers, List.getElem?_modify]
  rfl

theorem pairUpToDate_setMembers {pair : Nat × Cached V} {object : Nat} {members : M}
    (h : PairUpToDate hasher.toHasher storage pair)
    (hleft : pair.2.object = object → Left storage (storage.keys pair.1) (some members)) :
    PairUpToDate hasher.toHasher (storage.setMembers object members) pair := by
  obtain ⟨cell, hcell, hkey, hlast⟩ := h
  by_cases hobject : object = pair.2.object
  · refine ⟨{ cell with members }, ?_, hkey, hleft hobject.symm⟩
    rw [setMembers_getElem?, hcell, Option.map_some, if_pos hobject]
  · refine ⟨cell, ?_, hkey, hlast⟩
    rw [setMembers_getElem?, hcell, Option.map_some, if_neg hobject]

theorem UpToDate.setMembers (h : UpToDate hasher maxSize storage) {object : Nat} {members : M}
    (hop : Leaves storage object members) :
    UpToDate hasher maxSize (storage.setMembers object members) where
  refines := h.refines
  cached := fun pair hpair => pairUpToDate_setMembers (h.cached pair hpair) (hop pair hpair)
  recorded := h.recorded.frame rfl rfl rfl rfl

theorem UpToDate.save (h : UpToDate hasher maxSize storage) {object : Nat} {members : M}
    {hasAutoCommit : Bool} {service : Service}
    (hop : WritesThrough hasher.toHasher storage (.save object members hasAutoCommit service)) :
    ∃ result after,
      storage.save hasher.toHasher object members hasAutoCommit service = some (result, after) ∧
        UpToDate hasher maxSize after := by
  obtain ⟨cell, hcell, hop⟩ := hop
  have hget : storage.objects[object]? = some cell := hcell
  simp only [Storage.save, hget, Option.bind_eq_bind, Option.bind_some]
  by_cases hworks : service = .works
  · rw [if_pos hworks] at hop
    refine ⟨_, _, rfl, UpToDate.apply (storage.setMembers object members) h.refines
      (h.recorded.frame rfl rfl rfl rfl)
      (fun hrefused => by rw [hworks] at hrefused; cases hrefused) fun pair hpair => ?_⟩
    obtain ⟨found, hfound, hkey, hlast⟩ := h.cached pair hpair
    by_cases hobject : object = pair.2.object
    · have hmodified : (storage.setMembers object members).objects[pair.2.object]? =
          some { found with members } := by
        rw [setMembers_getElem?, hfound, Option.map_some, if_pos hobject]
      rw [← hobject, hget] at hfound
      obtain rfl := Option.some.inj hfound
      refine ⟨_, hmodified, hkey, ?_⟩
      rw [if_pos ⟨hworks, hasher.symm _ _ hkey⟩]
    · have hkept : (storage.setMembers object members).objects[pair.2.object]? = some found := by
        rw [setMembers_getElem?, hfound, Option.map_some, if_neg hobject]
      refine ⟨found, hkept, hkey, ?_⟩
      split
      · next hequal =>
        have hsame := hop pair hpair hequal.2 (Ne.symm hobject)
        rw [hfound, Option.map_some] at hsame
        exact hsame.symm
      · exact hlast
  · rw [if_neg hworks] at hop
    have hset := h.setMembers hop.1
    refine ⟨_, _, rfl, UpToDate.apply _ hset.refines hset.recorded hop.2 fun pair hpair => ?_⟩
    obtain ⟨found, hfound, hkey, hlast⟩ := hset.cached pair hpair
    exact ⟨found, hfound, hkey, by rw [if_neg fun h => hworks h.1]; exact hlast⟩

theorem UpToDate.step (h : UpToDate hasher maxSize storage) (hmax : 1 ≤ maxSize.toInt)
    {operation : Operation V M} (hop : WritesThrough hasher.toHasher storage operation) :
    ∃ after, storage.step hasher.toHasher operation = some after ∧
      UpToDate hasher maxSize after := by
  cases operation with
  | load key hasToRefresh service =>
    obtain ⟨result, after, hload, hafter, -⟩ := h.load hmax key service
    obtain rfl : hasToRefresh = false := hop
    exact ⟨after, by simp [Storage.step, hload], hafter⟩
  | save object members hasAutoCommit service =>
    obtain ⟨result, after, hsave, hafter⟩ := h.save hop
    exact ⟨after, by simp [Storage.step, hsave], hafter⟩
  | erase key hasAutoCommit service =>
    obtain ⟨result, after, herase, hafter⟩ := h.erase hop
    exact ⟨after, by simp [Storage.step, herase], hafter⟩
  | assign key value => exact absurd hop id
  | createObject key members =>
    exact ⟨_, rfl,
      h.of_cache h.refines (List.Subset.refl _) rfl (List.prefix_append _ _) rfl rfl rfl rfl⟩
  | setMembers object members => exact ⟨_, rfl, h.setMembers hop⟩
  | commit => exact ⟨_, rfl, h.refines, h.cached, h.recorded.commit⟩
  | rollback => exact ⟨_, rfl, h.refines, h.cached, h.recorded.rollback hop⟩

/-- As long as saves write through the cached objects, a storage reads its own writes over the whole
history. -/
theorem readsOwnWrites_of_writesThrough (hasher : LawfulHasher V) {maxSize : Int32}
    (hmax : 1 ≤ maxSize.toInt) (keys : Nat → V) (rows : V → Option M)
    {operations : List (Operation V M)}
    (hops : Runs.Meets? (step hasher.toHasher) (WritesThrough hasher.toHasher)
      (instantiate maxSize keys rows) operations) :
    ∃ storage, Runs.run? (step hasher.toHasher) (instantiate maxSize keys rows) operations =
        some storage ∧ ReadsOwnWrites hasher.toHasher storage := by
  obtain ⟨storage, hrun, h⟩ := hops.invariant (fun _ _ h hop => h.step hmax hop)
    (upToDate_instantiate hasher maxSize keys rows)
  exact ⟨storage, hrun, h.readsOwnWrites hmax⟩

section Accounts

def account (number : Int32) : {key : List Int32 // key.length = 1} := ⟨[number], rfl⟩

def accounts (key : {key : List Int32 // key.length = 1}) : Option (List Int32) :=
  if key.val = [0] then none else some key.val

theorem readsOwnWrites_of_writesThrough_accounts :
    ∃ storage, Runs.run? (step (PrimaryKey.integers 1).toHasher)
        (instantiate 1 (fun key => account (Int32.ofNat key)) accounts)
        [.load 1 false .works, .save 0 [10] true .works, .rollback, .load 2 false .works,
          .createObject 1 [11], .save 2 [11] false .works, .commit, .setMembers 2 [12],
          .save 1 [2] false .fails, .erase 2 true .works, .load 1 false .works] = some storage ∧
      ReadsOwnWrites (PrimaryKey.integers 1).toHasher storage :=
  readsOwnWrites_of_writesThrough (PrimaryKey.integers 1) (by decide) _ _ (by decide +kernel)

/-- An object of other members than those that the last successful save of its key left. -/
theorem not_readsOwnWrites {hasher : Hasher V} {key object : Nat} {found : List M} {row : Option M}
    (hload : (storage.load hasher key false .works).map (fun answer =>
        (answer.1.toOption, answer.2.objects.map Object.members, storage.written (storage.keys key)))
      = some (some object, found, some row)) (hrow : found[object]? ≠ row) :
    ¬ ReadsOwnWrites hasher storage := by
  intro h
  obtain ⟨result, after, hresult, hanswers⟩ := h key .works
  rw [hresult, Option.map_some, Option.some.injEq, Prod.mk.injEq, Prod.mk.injEq] at hload
  obtain ⟨hobject, rfl, hwritten⟩ := hload
  cases result with
  | error exception => cases hobject
  | ok loaded =>
    obtain rfl := Option.some.inj hobject
    obtain ⟨cell, hcell, hmembers⟩ := (hanswers row hwritten).1 loaded rfl
    exact hrow (by rw [List.getElem?_map, hcell, hmembers]; rfl)

/-- A save with another object of a cached key leaves the cached object as it was, and a save whose
commit is refused leaves its members to the next load. -/
theorem not_readsOwnWrites_otherObject :
    (∃ storage, Runs.run? (step (PrimaryKey.integers 1).toHasher)
        (instantiate 1 (fun key => account (Int32.ofNat key)) accounts)
        [.load 1 false .works, .createObject 1 [9], .save 1 [9] false .works] = some storage ∧
      ¬ ReadsOwnWrites (PrimaryKey.integers 1).toHasher storage) ∧
    ∃ storage, Runs.run? (step (PrimaryKey.integers 1).toHasher)
        (instantiate 1 (fun key => account (Int32.ofNat key)) accounts)
        [.createObject 1 [9], .save 0 [9] true .works, .save 0 [8] true .refused] = some storage ∧
      ¬ ReadsOwnWrites (PrimaryKey.integers 1).toHasher storage := by
  have hload : ((Runs.run? (step (PrimaryKey.integers 1).toHasher)
      (instantiate 1 (fun key => account (Int32.ofNat key)) accounts)
      [.load 1 false .works, .createObject 1 [9], .save 1 [9] false .works]).bind fun storage =>
        (storage.load (PrimaryKey.integers 1).toHasher 1 false .works).map fun answer =>
          (answer.1.toOption, answer.2.objects.map Object.members,
            storage.written (storage.keys 1))) =
      some (some 0, [[1], [9]], some (some [9])) := by decide +kernel
  have hrefused : ((Runs.run? (step (PrimaryKey.integers 1).toHasher)
      (instantiate 1 (fun key => account (Int32.ofNat key)) accounts)
      [.createObject 1 [9], .save 0 [9] true .works, .save 0 [8] true .refused]).bind fun storage =>
        (storage.load (PrimaryKey.integers 1).toHasher 1 false .works).map fun answer =>
          (answer.1.toOption, answer.2.objects.map Object.members,
            storage.written (storage.keys 1))) =
      some (some 1, [[8], [8]], some (some [9])) := by decide +kernel
  obtain ⟨storage, hrun, hload⟩ := Option.bind_eq_some_iff.mp hload
  obtain ⟨storage', hrun', hrefused⟩ := Option.bind_eq_some_iff.mp hrefused
  exact ⟨⟨storage, hrun, not_readsOwnWrites hload (by decide)⟩,
    ⟨storage', hrun', not_readsOwnWrites hrefused (by decide)⟩⟩

end Accounts

end Coffee.Persistence.Storage
