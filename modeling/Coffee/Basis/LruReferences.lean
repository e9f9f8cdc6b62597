import Coffee.Basis.LruRefinement

/-! # References into the LRU cache

`set` takes its value by reference, and `Cache::value` hands out references to what the cache holds.
A new key drops the oldest pair of a full cache before the value is read.
-/

namespace Coffee.Basis.Cache

open Coffee.Library

universe u

variable {K V : Type u}

inductive Reference (V : Type u) where
  | own (value : V)
  | node (id : Nat)

/-- `none` stands for a reference to a node that is gone. -/
def read (cache : Cache K V) : Reference V → Option V
  | .own value => some value
  | .node id => (cache.node? id).map (·.value)

/-- `set`, with its value where it is read: behind the eviction, and at the assignment. -/
def setFrom (hasher : Hasher K) (cache : Cache K V) (key : K) (value : Reference V) :
    Option (Cache K V) :=
  match cache.lookup hasher key with
  | none => do
    let cache ← cache.makeRoom hasher
    return cache.push hasher key (← cache.read value)
  | some ii => do
    let entry ← cache.m_quickAccess[ii]?
    let _ ← cache.node? entry.node
    let value ← cache.read value
    let cache := { cache with
      m_values := cache.m_values.map fun (node : Node K V) =>
        if node.id = entry.node then { node with value } else node }
    let (_, cache) ← cache.updateAccess ii
    return cache

/-- A value of the caller, or the value of a pair in the order of iteration. -/
inductive Argument (V : Type u) where
  | own (value : V)
  | stored (dd : Nat)
deriving DecidableEq, Repr

inductive Call (K V : Type u) where
  | find (key : K)
  | set (key : K) (value : Argument V)
  | erase (key : K)
deriving DecidableEq, Repr

/-- `none` where there is no such pair to refer to. -/
def Argument.reference? (cache : Cache K V) : Argument V → Option (Reference V)
  | .own value => some (.own value)
  | .stored dd => cache.m_values[dd]?.map fun node => .node node.id

def Argument.value? (pairs : List (K × V)) : Argument V → Option V
  | .own value => some value
  | .stored dd => pairs[dd]?.map Prod.snd

/-- A call without its pair is not made. -/
def call (hasher : Hasher K) (cache : Cache K V) :
    Call K V → Option (Option (Outcome K V) × Cache K V)
  | .find key => do
    let (outcome, cache) ← cache.step hasher (.find key)
    return (some outcome, cache)
  | .set key value =>
    match value.reference? cache with
    | none => some (none, cache)
    | some value => do return (some .stored, ← cache.setFrom hasher key value)
  | .erase key => do
    let (outcome, cache) ← cache.step hasher (.erase key)
    return (some outcome, cache)

def referenceCall (same : K → K → Bool) (maxSize : Nat) (pairs : List (K × V)) :
    Call K V → Option (Outcome K V) × List (K × V)
  | .find key => ((reference same maxSize pairs (.find key)).1,
      (reference same maxSize pairs (.find key)).2)
  | .set key value =>
    match value.value? pairs with
    | none => (none, pairs)
    | some value => ((reference same maxSize pairs (.set key value)).1,
        (reference same maxSize pairs (.set key value)).2)
  | .erase key => ((reference same maxSize pairs (.erase key)).1,
      (reference same maxSize pairs (.erase key)).2)

/-- The oldest pair, which a new key drops from a full list, is not the one whose value is set. -/
def Keeps (same : K → K → Bool) (maxSize : Nat) (pairs : List (K × V)) (call : Call K V) : Prop :=
  ∀ key, call = .set key (.stored 0) →
    (∃ pair ∈ pairs, same key pair.1 = true) ∨ pairs.length ≠ maxSize

/-- What a caller sees of the two structures. -/
structure Shows (hasher : LawfulHasher K) (maxSize : Int32) (cache : Cache K V)
    (pairs : List (K × V)) : Prop where
  pairs_eq : cache.pairs = pairs
  bound : cache.size ≤ maxSize.toInt.toNat
  agrees : cache.Agrees fun key _ => hasher.hash key
  distinct : Recency.Distinct hasher.equal cache.pairs

variable {hasher : LawfulHasher K} {maxSize : Int32} {cache : Cache K V} {pairs : List (K × V)}
  {key : K}

theorem Refines.shows (h : Refines hasher maxSize cache pairs) : Shows hasher maxSize cache pairs :=
  ⟨h.pairs_eq, h.size_eq ▸ h.bound, h.agrees, h.pairs_eq ▸ h.distinct⟩

theorem setFrom_own (hasher : Hasher K) (cache : Cache K V) (key : K) (value : V) :
    cache.setFrom hasher key (.own value) = cache.set hasher key value := by
  rw [setFrom, Cache.set]
  cases cache.lookup hasher key <;> rfl

theorem Agrees.read {code : K → V → UInt64} (h : cache.Agrees code) {node : Node K V}
    (hnode : node ∈ cache.m_values) : cache.read (.node node.id) = some node.value := by
  obtain ⟨v₁, v₂, hsplit⟩ := List.append_of_mem hnode
  rw [Cache.read, (h.node_eq hsplit).1, Option.map_some]

theorem makeRoom_values {hasher : Hasher K} {room : Cache K V}
    (h : cache.makeRoom hasher = some room) :
    room.m_values = if cache.isFull then cache.m_values.tail else cache.m_values := by
  rw [makeRoom] at h
  split at h
  · rename_i hfull
    rw [if_pos hfull]
    obtain ⟨oldest, -, hroom⟩ := Option.bind_eq_some_iff.mp h
    rw [← Option.some.inj hroom]
  · rename_i hfull
    rw [if_neg hfull, Option.some.inj h]

/-- A value that outlives the eviction is as good as one of the caller. -/
theorem setFrom_node {hasher : Hasher K} {code : K → V → UInt64} (h : cache.Agrees code)
    {node : Node K V} (hnode : node ∈ cache.m_values)
    (hroom : cache.lookup hasher key = none → ∀ room, cache.makeRoom hasher = some room →
      room.read (.node node.id) = some node.value) :
    cache.setFrom hasher key (.node node.id) = cache.set hasher key node.value := by
  rw [setFrom, Cache.set]
  cases hlookup : cache.lookup hasher key with
  | none =>
    cases hmade : cache.makeRoom hasher with
    | none => rfl
    | some room =>
      simp only [Option.bind_eq_bind, Option.bind_some, hroom hlookup room hmade]
  | some ii => simp only [h.read hnode, Option.bind_eq_bind, Option.bind_some]

theorem Refines.lookup_eq_none_iff (h : Refines hasher maxSize cache pairs) :
    cache.lookup hasher.toHasher key = none ↔ ¬ ∃ pair ∈ pairs, hasher.equal key pair.1 = true := by
  constructor
  · rintro hlookup ⟨pair, hpair, hsame⟩
    rw [h.new hlookup pair hpair] at hsame
    cases hsame
  · intro hnew
    cases hlookup : cache.lookup hasher.toHasher key with
    | none => rfl
    | some ii =>
      obtain ⟨v₁, node, v₂, -, -, hpairs, hsame, -⟩ := h.known hlookup
      exact absurd ⟨(node.key, node.value), by rw [hpairs]; simp, hsame⟩ hnew

theorem Refines.value?_stored (h : Refines hasher maxSize cache pairs) (dd : Nat) :
    (Argument.stored dd : Argument V).value? pairs = cache.m_values[dd]?.map (·.value) := by
  rw [Argument.value?, ← h.pairs_eq, Cache.pairs, List.getElem?_map, Option.map_map]
  rfl

theorem Refines.setFrom (h : Refines hasher maxSize cache pairs) (hmax : 1 ≤ maxSize.toInt)
    {dd : Nat} {node : Node K V} (hnode : cache.m_values[dd]? = some node)
    (hkeeps : Keeps hasher.equal maxSize.toInt.toNat pairs (.set key (.stored dd))) :
    ∃ after, cache.setFrom hasher.toHasher key (.node node.id) = some after ∧
      Refines hasher maxSize after
        (Recency.set hasher.equal maxSize.toInt.toNat key node.value pairs) := by
  have hmem := List.mem_of_getElem? hnode
  rw [setFrom_node h.agrees hmem fun hlookup room hmade => ?_]
  · exact h.set hmax key node.value
  · obtain ⟨room', hmade', hrefines, -⟩ := h.room hmax hlookup
    obtain rfl := Option.some.inj (hmade.symm.trans hmade')
    refine hrefines.agrees.read ?_
    rw [makeRoom_values hmade]
    split
    · rename_i hfull
      -- the pair is not the oldest one
      cases dd with
      | zero =>
        rcases hkeeps key rfl with hknown | hroom
        · exact absurd hknown (h.lookup_eq_none_iff.mp hlookup)
        · exact absurd ((h.isFull_iff hmax).mp hfull) hroom
      | succ dd =>
        refine List.mem_of_getElem? (i := dd) ?_
        rw [List.getElem?_tail, hnode]
    · exact hmem

/-- The value of the oldest pair is gone when a new key reads it. -/
theorem Refines.setFrom_oldest (h : Refines hasher maxSize cache pairs) (hmax : 1 ≤ maxSize.toInt)
    {node : Node K V} (hnode : cache.m_values[0]? = some node)
    (hnew : ¬ ∃ pair ∈ pairs, hasher.equal key pair.1 = true)
    (hfull : pairs.length = maxSize.toInt.toNat) :
    cache.setFrom hasher.toHasher key (.node node.id) = none := by
  have hlookup := h.lookup_eq_none_iff.mpr hnew
  obtain ⟨room, hmade, -⟩ := h.room hmax hlookup
  cases hvalues : cache.m_values with
  | nil =>
    rw [hvalues] at hnode
    cases hnode
  | cons first rest =>
    obtain rfl : first = node := by simpa [hvalues] using hnode
    have hrest : room.m_values = rest := by
      rw [makeRoom_values hmade, if_pos ((h.isFull_iff hmax).mpr hfull), hvalues, List.tail_cons]
    have hgone : room.node? first.id = none := by
      have hnodup := h.agrees.nodup
      rw [hvalues, List.map_cons, List.nodup_cons] at hnodup
      rw [node?, hrest, List.find?_eq_none]
      intro other hother heq
      exact hnodup.1 (List.mem_map.mpr ⟨other, hother, by simpa using heq⟩)
    simp [Cache.setFrom, hlookup, hmade, Cache.read, hgone]

theorem Refines.call (h : Refines hasher maxSize cache pairs) (hmax : 1 ≤ maxSize.toInt)
    {call : Call K V} (hkeeps : Keeps hasher.equal maxSize.toInt.toNat pairs call) :
    ∃ after, cache.call hasher.toHasher call =
        some ((referenceCall hasher.equal maxSize.toInt.toNat pairs call).1, after) ∧
      Refines hasher maxSize after
        (referenceCall hasher.equal maxSize.toInt.toNat pairs call).2 := by
  cases call with
  | find key =>
    obtain ⟨after, hstep, hafter⟩ := h.step hmax (.find key)
    exact ⟨after, by simp [Cache.call, referenceCall, hstep], hafter⟩
  | erase key =>
    obtain ⟨after, hstep, hafter⟩ := h.step hmax (.erase key)
    exact ⟨after, by simp [Cache.call, referenceCall, hstep], hafter⟩
  | set key value =>
    cases value with
    | own value =>
      obtain ⟨after, hset, hafter⟩ := h.set hmax key value
      refine ⟨after, ?_, hafter⟩
      simp [Cache.call, Argument.reference?, setFrom_own, hset, referenceCall, Argument.value?,
        reference]
    | stored dd =>
      have hvalue := h.value?_stored dd
      cases hnode : cache.m_values[dd]? with
      | none =>
        rw [hnode, Option.map_none] at hvalue
        refine ⟨cache, ?_, ?_⟩
        · simp [Cache.call, Argument.reference?, hnode, referenceCall, hvalue]
        · rw [referenceCall, hvalue]
          exact h
      | some node =>
        rw [hnode, Option.map_some] at hvalue
        obtain ⟨after, hset, hafter⟩ := h.setFrom hmax hnode hkeeps
        refine ⟨after, ?_, ?_⟩
        · simp [Cache.call, Argument.reference?, hnode, hset, referenceCall, hvalue, reference]
        · rw [referenceCall, hvalue]
          exact hafter

theorem Refines.call_undefined (h : Refines hasher maxSize cache pairs) (hmax : 1 ≤ maxSize.toInt)
    {call : Call K V} (hnot : ¬ Keeps hasher.equal maxSize.toInt.toNat pairs call) :
    cache.call hasher.toHasher call = none := by
  simp only [Keeps, not_forall, not_or, ne_eq, not_not] at hnot
  obtain ⟨key, rfl, hnew, hfull⟩ := hnot
  cases hnode : cache.m_values[0]? with
  | none =>
    have hnil : pairs.length = 0 := by
      rw [← h.pairs_eq, Cache.pairs, List.length_map]
      simpa using hnode
    omega
  | some node =>
    have hgone := h.setFrom_oldest hmax hnode hnew hfull
    simp only [Cache.call, Argument.reference?, hnode, Option.map_some, hgone, Option.bind_eq_bind,
      Option.bind_none]

end Coffee.Basis.Cache
