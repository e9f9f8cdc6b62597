import Coffee.Basis.LruCache

/-! # The LRU cache is a bounded recency list

With a lawful hash the cache computes what the recency list of `Library.Recency` computes, over
every sequence of operations, and its two structures stay in agreement.
-/

namespace Coffee.Basis.Cache

open Coffee.Library

universe u

variable {K V : Type u}

inductive Operation (K V : Type u) where
  | find (key : K)
  | set (key : K) (value : V)
  | erase (key : K)
deriving DecidableEq, Repr

inductive Outcome (K V : Type u) where
  | found (pair : Option (K × V))
  | stored
  | erased (removed : Bool)
deriving DecidableEq, Repr

def step (hasher : Hasher K) (cache : Cache K V) :
    Operation K V → Option (Outcome K V × Cache K V)
  | .find key => do
    let (node, cache) ← cache.find hasher key
    return (.found (node.map fun node => (node.key, node.value)), cache)
  | .set key value => do return (.stored, ← cache.set hasher key value)
  | .erase key => do
    let (removed, cache) ← cache.erase hasher key
    return (.erased removed, cache)

def reference (same : K → K → Bool) (maxSize : Nat) (pairs : List (K × V)) :
    Operation K V → Outcome K V × List (K × V)
  | .find key => (.found (Recency.find same key pairs).1, (Recency.find same key pairs).2)
  | .set key value => (.stored, Recency.set same maxSize key value pairs)
  | .erase key => (.erased (Recency.erase same key pairs).1, (Recency.erase same key pairs).2)

/-- The cache holds the pairs of the reference list, within its size. -/
structure Refines (hasher : LawfulHasher K) (maxSize : Int32) (cache : Cache K V)
    (pairs : List (K × V)) : Prop where
  agrees : cache.Agrees fun key _ => hasher.hash key
  pairs_eq : cache.pairs = pairs
  distinct : Recency.Distinct hasher.equal pairs
  maxSize_eq : cache.m_maxSize = maxSize
  bound : pairs.length ≤ maxSize.toInt.toNat

variable {hasher : LawfulHasher K} {maxSize : Int32} {cache : Cache K V} {pairs : List (K × V)}
  {key : K} {value : V}

theorem refines_instantiate (hasher : LawfulHasher K) (maxSize : Int32) :
    Refines hasher maxSize (instantiate maxSize : Cache K V) [] where
  agrees := agrees_instantiate maxSize
  pairs_eq := rfl
  distinct := List.Pairwise.nil
  maxSize_eq := rfl
  bound := Nat.zero_le _

theorem Refines.size_eq (h : Refines hasher maxSize cache pairs) : cache.size = pairs.length := by
  rw [h.agrees.size_eq, ← h.pairs_eq, Cache.pairs, List.length_map]

theorem Refines.isFull_iff (h : Refines hasher maxSize cache pairs) (hmax : 1 ≤ maxSize.toInt) :
    cache.isFull = true ↔ pairs.length = maxSize.toInt.toNat := by
  have hlt := maxSize.toInt_lt
  rw [isFull, h.size_eq, h.maxSize_eq, decide_eq_true_eq]
  omega

theorem Refines.new (h : Refines hasher maxSize cache pairs)
    (hlookup : cache.lookup hasher.toHasher key = none) :
    ∀ pair ∈ pairs, hasher.equal key pair.1 = false := by
  intro pair hpair
  rw [← h.pairs_eq] at hpair
  obtain ⟨node, hnode, rfl⟩ := List.mem_map.mp hpair
  by_contra hsame
  rw [Bool.not_eq_false] at hsame
  exact lookup_eq_none h.agrees hlookup node hnode ⟨(hasher.hash_eq _ _ hsame).symm, hsame⟩

theorem Refines.known (h : Refines hasher maxSize cache pairs) {ii : Nat}
    (hlookup : cache.lookup hasher.toHasher key = some ii) :
    ∃ v₁ node v₂, cache.m_values = v₁ ++ node :: v₂ ∧
      cache.m_quickAccess[ii]? = some (node.entry fun key _ => hasher.hash key) ∧
      pairs = (v₁.map fun node => (node.key, node.value)) ++ (node.key, node.value) ::
        (v₂.map fun node => (node.key, node.value)) ∧
      hasher.equal key node.key = true ∧
      ∀ other ∈ v₁.map fun node => (node.key, node.value), hasher.equal key other.1 = false := by
  obtain ⟨v₁, node, v₂, hsplit, hii, -, hsame⟩ := lookup_eq_some h.agrees hlookup
  have hpairs : pairs = (v₁.map fun node => (node.key, node.value)) ++ (node.key, node.value) ::
      (v₂.map fun node => (node.key, node.value)) := by
    rw [← h.pairs_eq, Cache.pairs, hsplit, List.map_append, List.map_cons]
  refine ⟨v₁, node, v₂, hsplit, hii, hpairs, hsame, ?_⟩
  exact (hpairs ▸ h.distinct).before hasher.symm hasher.trans hsame

theorem Refines.find (h : Refines hasher maxSize cache pairs) (key : K) :
    ∃ vv after, cache.find hasher.toHasher key = some (vv, after) ∧
      (vv.map fun node => (node.key, node.value)) = (Recency.find hasher.equal key pairs).1 ∧
      Refines hasher maxSize after (Recency.find hasher.equal key pairs).2 := by
  cases hlookup : cache.lookup hasher.toHasher key with
  | none =>
    rw [Recency.find_new (h.new hlookup)]
    exact ⟨none, cache, Agrees.find_none hlookup, rfl, h⟩
  | some ii =>
    obtain ⟨v₁, node, v₂, hsplit, hii, rfl, hsame, hbefore⟩ := h.known hlookup
    obtain ⟨id, after, hfind, hagrees, hvalues, hmax⟩ := h.agrees.find_some hlookup hsplit hii
    rw [Recency.find_known hbefore hsame]
    refine ⟨_, after, hfind, rfl, hagrees, ?_, h.distinct.move hasher.symm,
      hmax.trans h.maxSize_eq, ?_⟩
    · simp [Cache.pairs, hvalues]
    · have hbound := h.bound
      simp only [List.length_append, List.length_cons, List.length_nil] at hbound ⊢
      omega

theorem Refines.erase (h : Refines hasher maxSize cache pairs) (key : K) :
    ∃ after, cache.erase hasher.toHasher key =
        some ((Recency.erase hasher.equal key pairs).1, after) ∧
      Refines hasher maxSize after (Recency.erase hasher.equal key pairs).2 := by
  cases hlookup : cache.lookup hasher.toHasher key with
  | none =>
    rw [Recency.erase_new (h.new hlookup)]
    exact ⟨cache, by simp [Cache.erase, hlookup], h⟩
  | some ii =>
    obtain ⟨v₁, node, v₂, hsplit, hii, rfl, hsame, hbefore⟩ := h.known hlookup
    obtain ⟨after, herase, hagrees, hvalues, hmax⟩ := h.agrees.erase_some hlookup hsplit hii
    rw [Recency.erase_known hbefore hsame]
    refine ⟨after, herase, hagrees, ?_, ?_, hmax.trans h.maxSize_eq, ?_⟩
    · simp [Cache.pairs, hvalues]
    · exact h.distinct.sublist ((List.sublist_cons_self _ _).append_left _)
    · have hbound := h.bound
      simp only [List.length_append, List.length_cons] at hbound ⊢
      omega

theorem Refines.oldest (h : Refines hasher maxSize cache pairs) {oldest : Node K V}
    {rest : List (Node K V)} (hsplit : cache.m_values = oldest :: rest) :
    ∃ ii, cache.lookup hasher.toHasher oldest.key = some ii ∧
      cache.m_quickAccess[ii]? = some (oldest.entry fun key _ => hasher.hash key) := by
  cases hlookup : cache.lookup hasher.toHasher oldest.key with
  | none =>
    have hself := h.new hlookup (oldest.key, oldest.value) (by
      rw [← h.pairs_eq, Cache.pairs, hsplit]
      simp)
    rw [hasher.refl] at hself
    cases hself
  | some ii =>
    obtain ⟨v₁, node, v₂, hnode, hii, -, -, hbefore⟩ := h.known hlookup
    rw [hsplit] at hnode
    cases v₁ with
    | nil =>
      obtain ⟨rfl, -⟩ := List.cons.inj hnode
      exact ⟨ii, rfl, hii⟩
    | cons first v₁ =>
      obtain ⟨rfl, -⟩ := List.cons.inj hnode
      have hself := hbefore (oldest.key, oldest.value) (by simp)
      rw [hasher.refl] at hself
      cases hself

theorem Refines.room (h : Refines hasher maxSize cache pairs) (hmax : 1 ≤ maxSize.toInt)
    (hlookup : cache.lookup hasher.toHasher key = none) :
    ∃ after, cache.makeRoom hasher.toHasher = some after ∧
      Refines hasher maxSize after
        (if pairs.length = maxSize.toInt.toNat then pairs.tail else pairs) ∧
      (if pairs.length = maxSize.toInt.toNat then pairs.tail else pairs).length <
        maxSize.toInt.toNat ∧
      after.lookup hasher.toHasher key = none := by
  have hbound := h.bound
  by_cases hfull : pairs.length = maxSize.toInt.toNat
  · rw [makeRoom, if_pos ((h.isFull_iff hmax).mpr hfull), if_pos hfull]
    cases hvalues : cache.m_values with
    | nil =>
      have hnil : pairs = [] := by rw [← h.pairs_eq, Cache.pairs, hvalues, List.map_nil]
      rw [hnil, List.length_nil] at hfull
      omega
    | cons oldest rest =>
      obtain ⟨ii, holdest, hii⟩ := h.oldest hvalues
      obtain ⟨after, hevict, hagrees, hrest, hsize, hsubset⟩ := h.agrees.evict hvalues holdest hii
      have htail : after.pairs = pairs.tail := by
        rw [← h.pairs_eq, Cache.pairs, Cache.pairs, hrest, hvalues, List.map_cons, List.tail_cons]
      have hlength := List.length_tail (l := pairs)
      refine ⟨after, hevict, ⟨hagrees, htail, h.distinct.sublist (List.tail_sublist _),
        hsize.trans h.maxSize_eq, by omega⟩, by omega, lookup_eq_none_of_subset hlookup hsubset⟩
  · rw [makeRoom, if_neg (fun hcache => hfull ((h.isFull_iff hmax).mp hcache)), if_neg hfull]
    exact ⟨cache, rfl, h, by omega, hlookup⟩

theorem Refines.set (h : Refines hasher maxSize cache pairs) (hmax : 1 ≤ maxSize.toInt) (key : K)
    (value : V) :
    ∃ after, cache.set hasher.toHasher key value = some after ∧
      Refines hasher maxSize after
        (Recency.set hasher.equal maxSize.toInt.toNat key value pairs) := by
  cases hlookup : cache.lookup hasher.toHasher key with
  | none =>
    obtain ⟨room, hroom, hrefines, hlt, hnone⟩ := h.room hmax hlookup
    rw [Recency.set_new (h.new hlookup)]
    refine ⟨room.push hasher.toHasher key value, by simp [Cache.set, hlookup, hroom], ?_⟩
    refine ⟨hrefines.agrees.push value hnone rfl, ?_, hrefines.distinct.concat hasher.symm
      (hrefines.new hnone), hrefines.maxSize_eq, ?_⟩
    · rw [← hrefines.pairs_eq]
      simp [Cache.pairs, push]
    · rw [List.length_append, List.length_singleton]
      omega
  | some ii =>
    obtain ⟨v₁, node, v₂, hsplit, hii, rfl, hsame, hbefore⟩ := h.known hlookup
    obtain ⟨hnode, -⟩ := h.agrees.node_eq hsplit
    obtain ⟨hassign, hagrees⟩ := h.agrees.assign value hsplit rfl
    obtain ⟨id, after, haccess, hafter, hvalues, hsize⟩ := hagrees.updateAccess rfl hii
    rw [Recency.set_known hbefore hsame]
    refine ⟨after, ?_, hafter, ?_, h.distinct.move hasher.symm, hsize.trans h.maxSize_eq, ?_⟩
    · have hid : (node.entry fun key (_ : V) => hasher.hash key).node = node.id := rfl
      simp [Cache.set, hlookup, hii, hid, hnode, hassign, haccess]
    · simp [Cache.pairs, hvalues]
    · have hbound := h.bound
      simp only [List.length_append, List.length_cons, List.length_nil] at hbound ⊢
      omega

theorem Refines.step (h : Refines hasher maxSize cache pairs) (hmax : 1 ≤ maxSize.toInt)
    (operation : Operation K V) :
    ∃ after, cache.step hasher.toHasher operation =
        some ((reference hasher.equal maxSize.toInt.toNat pairs operation).1, after) ∧
      Refines hasher maxSize after
        (reference hasher.equal maxSize.toInt.toNat pairs operation).2 := by
  cases operation with
  | find key =>
    obtain ⟨vv, after, hfind, hvv, hafter⟩ := h.find key
    exact ⟨after, by simp [Cache.step, reference, hfind, hvv], hafter⟩
  | set key value =>
    obtain ⟨after, hset, hafter⟩ := h.set hmax key value
    exact ⟨after, by simp [Cache.step, reference, hset], hafter⟩
  | erase key =>
    obtain ⟨after, herase, hafter⟩ := h.erase key
    exact ⟨after, by simp [Cache.step, reference, herase], hafter⟩

def parity : LawfulHasher Nat where
  hash key := UInt64.ofNat (key % 2)
  equal a b := a == b
  refl a := beq_self_eq_true a
  symm a b h := beq_iff_eq.mpr (beq_iff_eq.mp h).symm
  trans a b c hab hbc := by simp_all
  hash_eq a b h := by simp_all

end Coffee.Basis.Cache
