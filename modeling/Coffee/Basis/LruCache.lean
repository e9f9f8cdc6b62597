import Coffee.Library.Recency
import Coffee.Library.Runs
import Mathlib.Algebra.Group.Int.Defs
import Mathlib.Data.List.Nodup
import Mathlib.Data.List.Perm.Basic

/-! # The LRU cache

`basis::pattern::lru::Cache` keeps its pairs in a list and finds them through a hash map from keys
to list iterators. An iterator is the number of its list node. `none` stands for undefined
behaviour: the end of an empty list, or an iterator whose node is gone.
-/

namespace Coffee.Basis

open Coffee.Library

universe u

/-- `_Hash` and `_Pred`. -/
structure Hasher (K : Type u) where
  hash : K → UInt64
  equal : K → K → Bool

/-- An equivalence of keys that the hash respects. -/
structure LawfulHasher (K : Type u) extends Hasher K where
  refl : ∀ a, equal a a = true
  symm : ∀ a b, equal a b = true → equal b a = true
  trans : ∀ a b c, equal a b = true → equal b c = true → equal a c = true
  hash_eq : ∀ a b, equal a b = true → hash a = hash b

namespace Cache

structure Node (K V : Type u) where
  id : Nat
  key : K
  value : V
deriving DecidableEq, Repr

/-- An element of `m_quickAccess`, with the hash code that the map keeps beside the key. -/
structure Entry (K : Type u) where
  code : UInt64
  key : K
  node : Nat
deriving DecidableEq, Repr

end Cache

structure Cache (K V : Type u) where
  m_maxSize : Int32
  m_values : List (Cache.Node K V)
  m_quickAccess : List (Cache.Entry K)
  nextNode : Nat
deriving DecidableEq, Repr

namespace Cache

variable {K V : Type u}

def instantiate (maxSize : Int32) : Cache K V := ⟨maxSize, [], [], 0⟩

def pairs (cache : Cache K V) : List (K × V) := cache.m_values.map fun node => (node.key, node.value)

def size (cache : Cache K V) : Nat := cache.m_quickAccess.length

/-- The comparison of a `size_t` with an `int`. -/
def isFull (cache : Cache K V) : Bool := cache.size = (cache.m_maxSize.toInt % 2 ^ 64).toNat

def node? (cache : Cache K V) (id : Nat) : Option (Node K V) :=
  cache.m_values.find? fun node => node.id = id

/-- `m_quickAccess.find(key)`: the map compares the codes before the keys. -/
def lookup (hasher : Hasher K) (cache : Cache K V) (key : K) : Option Nat :=
  cache.m_quickAccess.findIdx? fun entry =>
    entry.code == hasher.hash key && hasher.equal key entry.key

def updateAccess (cache : Cache K V) (ii : Nat) : Option (Node K V × Cache K V) := do
  let entry ← cache.m_quickAccess[ii]?
  let last ← cache.m_values.getLast?
  if entry.node = last.id then return (last, cache)
  else
    let backup ← cache.node? entry.node
    let moved := { backup with id := cache.nextNode }
    return (moved, { cache with
      m_values := cache.m_values.eraseP (fun node => node.id = entry.node) ++ [moved]
      m_quickAccess := cache.m_quickAccess.set ii { entry with node := moved.id }
      nextNode := cache.nextNode + 1 })

def find (hasher : Hasher K) (cache : Cache K V) (key : K) : Option (Option (Node K V) × Cache K V) :=
  match cache.lookup hasher key with
  | none => some (none, cache)
  | some ii => do
    let (node, cache) ← cache.updateAccess ii
    return (some node, cache)

def evict (hasher : Hasher K) (cache : Cache K V) : Option (Cache K V) := do
  let oldest ← cache.m_values.head?
  return { cache with
    m_values := cache.m_values.tail
    m_quickAccess := match cache.lookup hasher oldest.key with
      | none => cache.m_quickAccess
      | some ii => cache.m_quickAccess.eraseIdx ii }

def makeRoom (hasher : Hasher K) (cache : Cache K V) : Option (Cache K V) :=
  if cache.isFull then cache.evict hasher else some cache

/-- `push_back`, and `m_quickAccess[key] = last_value()`. -/
def push (hasher : Hasher K) (cache : Cache K V) (key : K) (value : V) : Cache K V :=
  { cache with
    m_values := cache.m_values ++ [⟨cache.nextNode, key, value⟩]
    m_quickAccess := match cache.lookup hasher key with
      | none => ⟨hasher.hash key, key, cache.nextNode⟩ :: cache.m_quickAccess
      | some ii => cache.m_quickAccess.modify ii fun entry => { entry with node := cache.nextNode }
    nextNode := cache.nextNode + 1 }

/-- `value` is none of the cache's own references: see `Coffee.Basis.Cache.setFrom` for these. -/
def set (hasher : Hasher K) (cache : Cache K V) (key : K) (value : V) : Option (Cache K V) :=
  match cache.lookup hasher key with
  | none => do return (← cache.makeRoom hasher).push hasher key value
  | some ii => do
    let entry ← cache.m_quickAccess[ii]?
    let _ ← cache.node? entry.node
    let cache := { cache with
      m_values := cache.m_values.map fun (node : Node K V) =>
        if node.id = entry.node then { node with value } else node }
    let (_, cache) ← cache.updateAccess ii
    return cache

def erase (hasher : Hasher K) (cache : Cache K V) (key : K) : Option (Bool × Cache K V) :=
  match cache.lookup hasher key with
  | none => some (false, cache)
  | some ii => do
    let entry ← cache.m_quickAccess[ii]?
    let _ ← cache.node? entry.node
    return (true, { cache with
      m_values := cache.m_values.eraseP fun node => node.id = entry.node
      m_quickAccess := cache.m_quickAccess.eraseIdx ii })

/-- The entry that the map should hold for a node whose code is `code`. -/
def Node.entry (code : K → V → UInt64) (node : Node K V) : Entry K :=
  ⟨code node.key node.value, node.key, node.id⟩

/-- The map holds exactly the entries of the nodes of the list, each with its own node. -/
structure Agrees (code : K → V → UInt64) (cache : Cache K V) : Prop where
  nodup : (cache.m_values.map (·.id)).Nodup
  fresh : ∀ node ∈ cache.m_values, node.id < cache.nextNode
  perm : cache.m_quickAccess.Perm (cache.m_values.map (Node.entry code))

variable {hasher : Hasher K} {code : K → V → UInt64} {cache : Cache K V} {key : K} {value : V}
  {ii : Nat} {node : Node K V} {v₁ v₂ : List (Node K V)}

theorem agrees_instantiate (maxSize : Int32) : (instantiate maxSize : Cache K V).Agrees code :=
  ⟨List.nodup_nil, fun _ h => absurd h List.not_mem_nil, List.Perm.refl _⟩

theorem Agrees.size_eq (h : cache.Agrees code) : cache.size = cache.m_values.length := by
  rw [size, h.perm.length_eq, List.length_map]

theorem Agrees.split (h : cache.Agrees code) {entry : Entry K}
    (hii : cache.m_quickAccess[ii]? = some entry) :
    ∃ v₁ node v₂, cache.m_values = v₁ ++ node :: v₂ ∧ entry = node.entry code := by
  have hmem := h.perm.subset (List.mem_of_getElem? hii)
  obtain ⟨node, hnode, rfl⟩ := List.mem_map.mp hmem
  obtain ⟨v₁, v₂, hsplit⟩ := List.append_of_mem hnode
  exact ⟨v₁, node, v₂, hsplit, rfl⟩

theorem Agrees.node_eq (h : cache.Agrees code) (hsplit : cache.m_values = v₁ ++ node :: v₂) :
    cache.node? node.id = some node ∧
      (cache.m_values.eraseP fun other => other.id = node.id) = v₁ ++ v₂ := by
  have hnodup := h.nodup
  rw [hsplit, List.map_append, List.map_cons] at hnodup
  have hv₁ : ∀ other ∈ v₁, ¬ decide (other.id = node.id) = true := by
    intro other hother
    have hne := (List.nodup_append.mp hnodup).2.2 other.id (List.mem_map_of_mem hother) node.id
      List.mem_cons_self
    simpa using hne
  constructor
  · rw [node?, hsplit, List.find?_append, List.find?_eq_none.mpr hv₁]
    simp
  · rw [hsplit, List.eraseP_append_right _ hv₁, List.eraseP_cons_of_pos (by simp)]

theorem Agrees.remove (h : cache.Agrees code) (hsplit : cache.m_values = v₁ ++ node :: v₂)
    (hii : cache.m_quickAccess[ii]? = some (node.entry code)) :
    ({ cache with
      m_values := v₁ ++ v₂
      m_quickAccess := cache.m_quickAccess.eraseIdx ii } : Cache K V).Agrees code := by
  obtain ⟨hlt, hget⟩ := List.getElem?_eq_some_iff.mp hii
  have hsub : (v₁ ++ v₂).Sublist cache.m_values :=
    hsplit ▸ (List.sublist_cons_self node v₂).append_left v₁
  refine ⟨h.nodup.sublist (hsub.map _), fun other hother => h.fresh other (hsub.subset hother), ?_⟩
  have hperm : (cache.m_quickAccess[ii] :: cache.m_quickAccess.eraseIdx ii).Perm
      (node.entry code :: (v₁ ++ v₂).map (Node.entry code)) := by
    refine (List.getElem_cons_eraseIdx_perm hlt).trans (h.perm.trans ?_)
    rw [hsplit, List.map_append, List.map_cons, List.map_append]
    exact List.perm_middle
  rw [hget] at hperm
  exact hperm.cons_inv

theorem Agrees.append (h : cache.Agrees code) (key : K) (value : V) :
    ({ cache with
      m_values := cache.m_values ++ [⟨cache.nextNode, key, value⟩]
      m_quickAccess := ⟨code key value, key, cache.nextNode⟩ :: cache.m_quickAccess
      nextNode := cache.nextNode + 1 } : Cache K V).Agrees code := by
  refine ⟨?_, fun node hnode => ?_, ?_⟩
  · rw [List.map_append, List.nodup_append]
    refine ⟨h.nodup, List.nodup_singleton _, ?_⟩
    rintro a ha b hb rfl
    obtain ⟨node, hnode, rfl⟩ := List.mem_map.mp ha
    have hlt := h.fresh node hnode
    simp only [List.map_cons, List.map_nil, List.mem_singleton] at hb
    omega
  · rcases List.mem_append.mp hnode with hnode | hnode
    · exact Nat.lt_succ_of_lt (h.fresh node hnode)
    · obtain rfl := List.mem_singleton.mp hnode
      exact Nat.lt_succ_self _
  · rw [List.map_append]
    exact (h.perm.cons _).trans (List.perm_append_singleton _ _).symm

/-- An access moves the node to the end under a new iterator. -/
theorem Agrees.updateAccess (h : cache.Agrees code) (hsplit : cache.m_values = v₁ ++ node :: v₂)
    (hii : cache.m_quickAccess[ii]? = some (node.entry code)) :
    ∃ id after, cache.updateAccess ii = some ({ node with id }, after) ∧ after.Agrees code ∧
      after.m_values = v₁ ++ v₂ ++ [{ node with id }] ∧ after.m_maxSize = cache.m_maxSize := by
  obtain ⟨hnode, herase⟩ := h.node_eq hsplit
  have hentry : (node.entry code).node = node.id := rfl
  rcases List.eq_nil_or_concat v₂ with rfl | ⟨v₃, last, rfl⟩
  · refine ⟨node.id, cache, ?_, h, by simpa using hsplit, rfl⟩
    rw [Cache.updateAccess, hii, hsplit]
    simp [hentry]
  · have hlast : cache.m_values.getLast? = some last := by
      rw [hsplit, List.concat_eq_append, ← List.cons_append, ← List.append_assoc]
      exact List.getLast?_concat
    have hne : node.id ≠ last.id := by
      have hnodup := h.nodup
      rw [hsplit, List.map_append, List.map_cons] at hnodup
      have hcons := (List.nodup_append.mp hnodup).2.1
      intro heq
      refine (List.nodup_cons.mp hcons).1 ?_
      rw [heq]
      simp
    have hmoved := (h.remove hsplit hii).append node.key node.value
    obtain ⟨hlt, -⟩ := List.getElem?_eq_some_iff.mp hii
    refine ⟨cache.nextNode, { cache with
      m_values := v₁ ++ v₃.concat last ++ [{ node with id := cache.nextNode }]
      m_quickAccess := cache.m_quickAccess.set ii ⟨code node.key node.value, node.key, cache.nextNode⟩
      nextNode := cache.nextNode + 1 }, ?_, ⟨hmoved.nodup, hmoved.fresh, ?_⟩, rfl, rfl⟩
    · rw [Cache.updateAccess, hii, hlast]
      simp only [Option.bind_eq_bind, Option.bind_some, hentry, if_neg hne, hnode, herase]
      rfl
    · exact (List.set_perm_cons_eraseIdx hlt _).trans hmoved.perm

theorem Agrees.assign (h : cache.Agrees code) (value : V) (hsplit : cache.m_values = v₁ ++ node :: v₂)
    (hcode : code node.key value = code node.key node.value) :
    (cache.m_values.map fun (other : Node K V) =>
        if other.id = node.id then { other with value } else other) =
        v₁ ++ { node with value } :: v₂ ∧
      ({ cache with m_values := v₁ ++ { node with value } :: v₂ } : Cache K V).Agrees code := by
  have hnodup := h.nodup
  rw [hsplit, List.map_append, List.map_cons] at hnodup
  obtain ⟨-, hcons, hv₁⟩ := List.nodup_append.mp hnodup
  have hv₂ := (List.nodup_cons.mp hcons).1
  have hkeep : ∀ v : List (Node K V), (∀ other ∈ v, other.id ≠ node.id) →
      (v.map fun (other : Node K V) => if other.id = node.id then { other with value } else other) =
        v := by
    intro v hv
    refine (List.map_congr_left fun other hother => ?_).trans (List.map_id v)
    exact if_neg (hv other hother)
  constructor
  · rw [hsplit, List.map_append, List.map_cons, if_pos rfl,
      hkeep v₁ fun other hother => hv₁ _ (List.mem_map_of_mem hother) _ List.mem_cons_self,
      hkeep v₂ fun other hother heq => hv₂ (heq ▸ List.mem_map_of_mem hother)]
  · have hentry : Node.entry code { node with value } = node.entry code := by
      rw [Node.entry, hcode]
      rfl
    refine ⟨by simpa using hnodup, fun other hother => ?_, ?_⟩
    · rcases List.mem_append.mp hother with hother | hother
      · exact h.fresh other (by simp [hsplit, hother])
      · rcases List.mem_cons.mp hother with rfl | hother
        · exact h.fresh node (by simp [hsplit])
        · exact h.fresh other (by simp [hsplit, hother])
    · have hperm := h.perm
      rw [hsplit, List.map_append, List.map_cons, ← hentry] at hperm
      simpa using hperm

theorem lookup_eq_some (h : cache.Agrees code) (hlookup : cache.lookup hasher key = some ii) :
    ∃ v₁ node v₂, cache.m_values = v₁ ++ node :: v₂ ∧
      cache.m_quickAccess[ii]? = some (node.entry code) ∧
      code node.key node.value = hasher.hash key ∧ hasher.equal key node.key = true := by
  obtain ⟨hlt, hmatch, -⟩ := List.findIdx?_eq_some_iff_getElem.mp hlookup
  obtain ⟨v₁, node, v₂, hsplit, hentry⟩ := h.split (List.getElem?_eq_getElem hlt)
  rw [hentry] at hmatch
  simp only [Node.entry, Bool.and_eq_true, beq_iff_eq] at hmatch
  exact ⟨v₁, node, v₂, hsplit, by rw [List.getElem?_eq_getElem hlt, hentry], hmatch⟩

theorem lookup_eq_none (h : cache.Agrees code) (hlookup : cache.lookup hasher key = none) :
    ∀ node ∈ cache.m_values,
      ¬ (code node.key node.value = hasher.hash key ∧ hasher.equal key node.key = true) := by
  intro node hnode hmatch
  have hmem : node.entry code ∈ cache.m_quickAccess :=
    h.perm.symm.subset (List.mem_map_of_mem hnode)
  have hnone := List.findIdx?_eq_none_iff.mp hlookup _ hmem
  simp [Node.entry, hmatch] at hnone

theorem Agrees.find_none (hlookup : cache.lookup hasher key = none) :
    cache.find hasher key = some (none, cache) := by
  rw [find, hlookup]

theorem Agrees.find_some (h : cache.Agrees code) (hlookup : cache.lookup hasher key = some ii)
    (hsplit : cache.m_values = v₁ ++ node :: v₂)
    (hii : cache.m_quickAccess[ii]? = some (node.entry code)) :
    ∃ id after, cache.find hasher key = some (some { node with id }, after) ∧ after.Agrees code ∧
      after.m_values = v₁ ++ v₂ ++ [{ node with id }] ∧ after.m_maxSize = cache.m_maxSize := by
  obtain ⟨id, after, haccess, hrest⟩ := h.updateAccess hsplit hii
  exact ⟨id, after, by simp [find, hlookup, haccess], hrest⟩

theorem Agrees.erase_some (h : cache.Agrees code) (hlookup : cache.lookup hasher key = some ii)
    (hsplit : cache.m_values = v₁ ++ node :: v₂)
    (hii : cache.m_quickAccess[ii]? = some (node.entry code)) :
    ∃ after, cache.erase hasher key = some (true, after) ∧ after.Agrees code ∧
      after.m_values = v₁ ++ v₂ ∧ after.m_maxSize = cache.m_maxSize := by
  obtain ⟨hnode, herase⟩ := h.node_eq hsplit
  have hentry : (node.entry code).node = node.id := rfl
  refine ⟨_, ?_, h.remove hsplit hii, rfl, rfl⟩
  simp only [erase, hlookup, hii, Option.bind_eq_bind, Option.bind_some, hentry, hnode, herase]
  rfl

theorem Agrees.push (h : cache.Agrees code) (value : V) (hlookup : cache.lookup hasher key = none)
    (hcode : code key value = hasher.hash key) : (cache.push hasher key value).Agrees code := by
  rw [Cache.push, hlookup, ← hcode]
  exact h.append key value

theorem Agrees.evict (h : cache.Agrees code) {rest : List (Node K V)}
    (hsplit : cache.m_values = node :: rest) (hlookup : cache.lookup hasher node.key = some ii)
    (hii : cache.m_quickAccess[ii]? = some (node.entry code)) :
    ∃ after, cache.evict hasher = some after ∧ after.Agrees code ∧ after.m_values = rest ∧
      after.m_maxSize = cache.m_maxSize ∧ after.m_quickAccess ⊆ cache.m_quickAccess := by
  have hfirst : cache.m_values = [] ++ node :: rest := hsplit
  have hremove := h.remove hfirst hii
  refine ⟨{ cache with
    m_values := rest
    m_quickAccess := cache.m_quickAccess.eraseIdx ii }, ?_, hremove, rfl, rfl, ?_⟩
  · simp [Cache.evict, hsplit, hlookup]
  · exact List.eraseIdx_subset

theorem lookup_eq_none_of_subset {after : Cache K V} (hlookup : cache.lookup hasher key = none)
    (hsubset : after.m_quickAccess ⊆ cache.m_quickAccess) : after.lookup hasher key = none :=
  List.findIdx?_eq_none_iff.mpr fun entry hentry =>
    List.findIdx?_eq_none_iff.mp hlookup entry (hsubset hentry)

end Cache

end Coffee.Basis
