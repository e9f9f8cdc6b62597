import Coffee.Basis.LruCache
import Coffee.Library.Walk

/-! # The LRU cache under a comparison that throws

`find` is `noexcept`, while `set` lets the exceptions of the comparison through to its caller. Keys
that compare equal are equal in both directions, and every key equals itself.
-/

namespace Coffee.Basis

open Coffee.Library

universe u

/-- `_Hash`, and a `_Pred` that may throw. -/
structure ThrowingHasher (K E : Type u) where
  hash : K → UInt64
  equal : K → K → Except E Bool
  refl : ∀ a, equal a a = .ok true
  symm : ∀ a b, equal a b = .ok true → equal b a = .ok true

namespace ThrowingHasher

variable {K V E : Type u}

/-- The hasher that holds an exception for a difference. -/
def toHasher (hasher : ThrowingHasher K E) : Hasher K where
  hash := hasher.hash
  equal a b := hasher.equal a b matches .ok true

variable (hasher : ThrowingHasher K E) (cache : Cache K V) (key : K) (value : V)

/-- The walk of the map along its entries. -/
def visitFrom : List (Cache.Entry K) → Except E (Option Nat)
  | [] => .ok none
  | entry :: entries =>
    if entry.code = hasher.hash key then
      match hasher.equal key entry.key with
      | .error exception => .error exception
      | .ok true => .ok (some 0)
      | .ok false => (Option.map (· + 1)) <$> visitFrom entries
    else (Option.map (· + 1)) <$> visitFrom entries

/-- `m_quickAccess.find(key)` -/
def visit : Except E (Option Nat) := hasher.visitFrom key cache.m_quickAccess

/-- An error is an exception inside the `noexcept` function, which ends the process. -/
def find : Except E (Option (Option (Cache.Node K V) × Cache K V)) :=
  match hasher.visit cache key with
  | .error exception => .error exception
  | .ok none => .ok (some (none, cache))
  | .ok (some ii) => .ok do
    let (node, cache) ← cache.updateAccess ii
    return (some node, cache)

/-- `m_quickAccess.erase(oldest.first)` throws before anything is changed. -/
def evict : Option (Except E Unit × Cache K V) := do
  let oldest ← cache.m_values.head?
  match hasher.visit cache oldest.key with
  | .error exception => return (.error exception, cache)
  | .ok found => return (.ok (), { cache with
      m_values := cache.m_values.tail
      m_quickAccess := match found with
        | none => cache.m_quickAccess
        | some ii => cache.m_quickAccess.eraseIdx ii })

def makeRoom : Option (Except E Unit × Cache K V) :=
  if cache.isFull then hasher.evict cache else some (.ok (), cache)

def push : Except E Unit × Cache K V :=
  let pushed : Cache K V := { cache with
    m_values := cache.m_values ++ [⟨cache.nextNode, key, value⟩]
    nextNode := cache.nextNode + 1 }
  match hasher.visit cache key with
  | .error exception => (.error exception, pushed)
  | .ok none => (.ok (), { pushed with
      m_quickAccess := ⟨hasher.hash key, key, cache.nextNode⟩ :: cache.m_quickAccess })
  | .ok (some ii) => (.ok (), { pushed with
      m_quickAccess := cache.m_quickAccess.modify ii fun entry =>
        { entry with node := cache.nextNode } })

def set : Option (Except E Unit × Cache K V) :=
  match hasher.visit cache key with
  | .error exception => some (.error exception, cache)
  | .ok none =>
    match hasher.makeRoom cache with
    | none => none
    | some (.error exception, cache) => some (.error exception, cache)
    | some (.ok (), cache) => some (hasher.push cache key value)
  | .ok (some ii) => do
    let entry ← cache.m_quickAccess[ii]?
    let _ ← cache.node? entry.node
    let cache : Cache K V := { cache with
      m_values := cache.m_values.map fun (node : Cache.Node K V) =>
        if node.id = entry.node then { node with value } else node }
    let (_, cache) ← cache.updateAccess ii
    return (.ok (), cache)

/-- The walk for a key comes to an entry that throws. -/
def Stumbles : Prop :=
  Walk.Stops (fun entry => entry.code = hasher.hash key → hasher.equal key entry.key = .ok false)
    (fun entry => entry.code = hasher.hash key ∧
      ∃ exception, hasher.equal key entry.key = .error exception) cache.m_quickAccess

variable {hasher cache key value} {entry : Cache.Entry K} {entries : List (Cache.Entry K)}
  {found : Option Nat} {ii : Nat} {code : K → V → UInt64}

theorem visitFrom_pass (h : entry.code = hasher.hash key → hasher.equal key entry.key = .ok false) :
    hasher.visitFrom key (entry :: entries) =
      (Option.map (· + 1)) <$> hasher.visitFrom key entries := by
  rw [visitFrom]
  split
  · rename_i hcode
    rw [h hcode]
  · rfl

theorem stumbles_iff : hasher.Stumbles cache key ↔
    ∃ exception, hasher.visit cache key = .error exception := by
  rw [Stumbles, visit]
  induction cache.m_quickAccess with
  | nil => simp [visitFrom]
  | cons entry entries ih =>
    have hpass : (entry.code = hasher.hash key → hasher.equal key entry.key = .ok false) →
        ((∃ exception, hasher.visitFrom key (entry :: entries) = .error exception) ↔
          ∃ exception, hasher.visitFrom key entries = .error exception) := by
      intro h
      rw [visitFrom_pass h]
      cases hasher.visitFrom key entries <;> simp
    rcases Decidable.em (entry.code = hasher.hash key) with hcode | hcode
    · cases hequal : hasher.equal key entry.key with
      | error exception =>
        exact iff_of_true (Walk.stops_cons_of_stop ⟨hcode, exception, hequal⟩)
          ⟨exception, by simp [visitFrom, hcode, hequal]⟩
      | ok equal =>
        cases equal with
        | false =>
          rw [hpass fun _ => hequal, ← ih]
          exact Walk.stops_cons_of_pass (fun _ => hequal) (by simp [hequal])
        | true =>
          refine iff_of_false (Walk.not_stops_cons_of_neither ?_ ?_) ?_
          · simp [hcode, hequal]
          · simp [hequal]
          · simp [visitFrom, hcode, hequal]
    · rw [hpass fun h => absurd h hcode, ← ih]
      exact Walk.stops_cons_of_pass (fun h => absurd h hcode) fun h => hcode h.1

theorem toHasher_equal {a b : K} :
    hasher.toHasher.equal a b = true ↔ hasher.equal a b = .ok true := by
  simp only [toHasher]
  cases hasher.equal a b with
  | error exception => simp
  | ok equal => cases equal <;> simp

/-- A walk that returns finds what the map finds under the total comparison. -/
theorem findIdx?_of_visitFrom (h : hasher.visitFrom key entries = .ok found) :
    entries.findIdx? (fun entry =>
      entry.code == hasher.hash key && hasher.toHasher.equal key entry.key) = found := by
  induction entries generalizing found with
  | nil => exact Except.ok.inj h
  | cons entry entries ih =>
    have hpass : (entry.code = hasher.hash key → hasher.equal key entry.key = .ok false) →
        (entry :: entries).findIdx? (fun entry =>
          entry.code == hasher.hash key && hasher.toHasher.equal key entry.key) = found := by
      intro hpass
      have hnot : ¬ (entry.code == hasher.hash key &&
          hasher.toHasher.equal key entry.key) = true := by
        rw [Bool.and_eq_true, beq_iff_eq, toHasher_equal]
        rintro ⟨hcode, hequal⟩
        rw [hpass hcode] at hequal
        cases hequal
      rw [visitFrom_pass hpass] at h
      rw [List.findIdx?_cons, if_neg hnot]
      cases hrest : hasher.visitFrom key entries with
      | error exception =>
        rw [hrest] at h
        cases h
      | ok rest =>
        rw [hrest] at h
        rw [ih hrest]
        exact Except.ok.inj h
    rcases Decidable.em (entry.code = hasher.hash key) with hcode | hcode
    · cases hequal : hasher.equal key entry.key with
      | error exception => simp [visitFrom, hcode, hequal] at h
      | ok equal =>
        cases equal with
        | false => exact hpass fun _ => hequal
        | true =>
          have htrue : (entry.code == hasher.hash key &&
              hasher.toHasher.equal key entry.key) = true := by
            rw [Bool.and_eq_true, beq_iff_eq, toHasher_equal]
            exact ⟨hcode, hequal⟩
          simp only [visitFrom, if_pos hcode, hequal] at h
          rw [List.findIdx?_cons, if_pos htrue]
          exact Except.ok.inj h
    · exact hpass fun h => absurd h hcode

theorem lookup_of_visit (h : hasher.visit cache key = .ok found) :
    cache.lookup hasher.toHasher key = found := findIdx?_of_visitFrom h

theorem visitFrom_eq_none (h : hasher.visitFrom key entries = .ok none) :
    ∀ entry ∈ entries, entry.code = hasher.hash key → hasher.equal key entry.key = .ok false := by
  induction entries with
  | nil => exact List.forall_mem_nil _
  | cons entry entries ih =>
    have hpass : entry.code = hasher.hash key → hasher.equal key entry.key = .ok false := by
      intro hcode
      rw [visitFrom, if_pos hcode] at h
      cases hequal : hasher.equal key entry.key with
      | error exception =>
        rw [hequal] at h
        cases h
      | ok equal =>
        cases equal with
        | false => rfl
        | true =>
          rw [hequal] at h
          cases h
    rw [visitFrom_pass hpass] at h
    refine List.forall_mem_cons.mpr ⟨hpass, ih ?_⟩
    cases hrest : hasher.visitFrom key entries with
    | error exception =>
      rw [hrest] at h
      cases h
    | ok found =>
      rw [hrest] at h
      cases found with
      | none => rfl
      | some ii => cases h

theorem visitFrom_of_pass
    (h : ∀ entry ∈ entries, entry.code = hasher.hash key → hasher.equal key entry.key = .ok false) :
    hasher.visitFrom key entries = .ok none := by
  induction entries with
  | nil => rfl
  | cons entry entries ih =>
    obtain ⟨hentry, hentries⟩ := List.forall_mem_cons.mp h
    rw [visitFrom_pass hentry, ih hentries]
    rfl

theorem visit_of_subset {after : Cache K V} (h : hasher.visit cache key = .ok none)
    (hsubset : after.m_quickAccess ⊆ cache.m_quickAccess) :
    hasher.visit after key = .ok none :=
  visitFrom_of_pass fun entry hentry => visitFrom_eq_none h entry (hsubset hentry)

section Total

variable {after : Cache K V}

/-- Where nothing throws, the cache is the one under the total comparison. -/
theorem evict_eq (h : hasher.evict cache = some (.ok (), after)) :
    cache.evict hasher.toHasher = some after := by
  unfold evict at h
  cases holdest : cache.m_values.head? with
  | none => simp [holdest] at h
  | some oldest =>
    cases hvisit : hasher.visit cache oldest.key with
    | error exception => simp [holdest, hvisit] at h
    | ok found =>
      simp only [holdest, hvisit, Option.bind_eq_bind, Option.bind_some] at h
      simp only [Cache.evict, holdest, Option.bind_eq_bind, Option.bind_some,
        lookup_of_visit hvisit]
      cases h
      rfl

theorem makeRoom_eq (h : hasher.makeRoom cache = some (.ok (), after)) :
    cache.makeRoom hasher.toHasher = some after := by
  unfold makeRoom at h
  rw [Cache.makeRoom]
  split
  · rename_i hfull
    rw [if_pos hfull] at h
    exact evict_eq h
  · rename_i hroom
    rw [if_neg hroom] at h
    cases h
    rfl

theorem push_eq (h : hasher.push cache key value = (.ok (), after)) :
    cache.push hasher.toHasher key value = after := by
  unfold push at h
  cases hvisit : hasher.visit cache key with
  | error exception => simp [hvisit] at h
  | ok found =>
    rw [Cache.push, lookup_of_visit hvisit]
    cases found <;> (simp only [hvisit] at h; cases h; rfl)

theorem set_eq (h : hasher.set cache key value = some (.ok (), after)) :
    cache.set hasher.toHasher key value = some after := by
  unfold set at h
  cases hvisit : hasher.visit cache key with
  | error exception => simp [hvisit] at h
  | ok found =>
    rw [Cache.set, lookup_of_visit hvisit]
    cases found with
    | none =>
      cases hroom : hasher.makeRoom cache with
      | none => simp [hvisit, hroom] at h
      | some made =>
        obtain ⟨result, room⟩ := made
        cases result with
        | error exception => simp [hvisit, hroom] at h
        | ok u =>
          simp only [hvisit, hroom, Option.some.injEq] at h
          simp only [makeRoom_eq hroom, Option.bind_eq_bind, Option.bind_some, push_eq h]
          rfl
    | some ii =>
      simp only [hvisit, Option.bind_eq_bind, Option.bind_eq_some_iff] at h
      obtain ⟨entry, hentry, node, hnode, ⟨moved, after'⟩, haccess, heq⟩ := h
      cases heq
      simp [hentry, hnode, haccess]

theorem find_eq {result : Option (Option (Cache.Node K V) × Cache K V)}
    (h : hasher.find cache key = .ok result) : cache.find hasher.toHasher key = result := by
  unfold find at h
  cases hvisit : hasher.visit cache key with
  | error exception => simp [hvisit] at h
  | ok found =>
    rw [Cache.find, lookup_of_visit hvisit]
    cases found <;> (simp only [hvisit] at h; exact Except.ok.inj h)

end Total

/-- The map and the list agree, no two keys of the cache are taken for one another, and a cache
without room is empty. -/
structure Sound (hasher : ThrowingHasher K E) (cache : Cache K V) : Prop where
  agrees : cache.Agrees fun key _ => hasher.hash key
  apart : (cache.m_values.map (·.key)).Pairwise fun a b =>
    hasher.hash a = hasher.hash b → hasher.equal a b ≠ .ok true
  empty : cache.m_maxSize = 0 → cache.m_values = []

theorem sound_instantiate (maxSize : Int32) :
    hasher.Sound (.instantiate maxSize : Cache K V) :=
  ⟨Cache.agrees_instantiate maxSize, List.Pairwise.nil, fun _ => rfl⟩

theorem Sound.find_none (hvisit : hasher.visit cache key = .ok none) :
    hasher.find cache key = .ok (some (none, cache)) := by
  rw [find, hvisit]

theorem Sound.find_some (h : hasher.Sound cache) (hvisit : hasher.visit cache key = .ok (some ii)) :
    ∃ node after, hasher.find cache key = .ok (some (some node, after)) ∧ hasher.Sound after ∧
      after.m_maxSize = cache.m_maxSize := by
  obtain ⟨v₁, node, v₂, hsplit, hii, -⟩ :=
    Cache.lookup_eq_some h.agrees (lookup_of_visit hvisit)
  obtain ⟨id, after, haccess, hagrees, hvalues, hmax⟩ := h.agrees.updateAccess hsplit hii
  have hkeys : (after.m_values.map (·.key)).Perm (cache.m_values.map (·.key)) := by
    rw [hvalues, hsplit, List.map_append, List.map_append, List.map_append, List.map_cons]
    exact (List.perm_append_singleton _ _).trans List.perm_middle.symm
  refine ⟨{ node with id }, after, ?_, ⟨hagrees, ?_, fun hzero => ?_⟩, hmax⟩
  · simp [find, hvisit, haccess]
  · refine (hkeys.pairwise_iff fun {a b} hab hhash hequal => ?_).mpr h.apart
    exact hab hhash.symm (hasher.symm b a hequal)
  · have hempty := h.empty (hmax ▸ hzero)
    rw [hsplit] at hempty
    simp at hempty

theorem Sound.evict (h : hasher.Sound cache) {oldest : Cache.Node K V}
    {rest : List (Cache.Node K V)} (hsplit : cache.m_values = oldest :: rest) :
    ∃ result after, hasher.evict cache = some (result, after) ∧ hasher.Sound after ∧
      after.m_maxSize = cache.m_maxSize ∧ after.m_quickAccess ⊆ cache.m_quickAccess := by
  cases hvisit : hasher.visit cache oldest.key with
  | error exception =>
    refine ⟨.error exception, cache, ?_, h, rfl, List.Subset.refl _⟩
    simp [ThrowingHasher.evict, hsplit, hvisit]
  | ok found =>
    cases found with
    | none =>
      have hmem : oldest.entry (fun key _ => hasher.hash key) ∈ cache.m_quickAccess := by
        refine h.agrees.perm.symm.subset (List.mem_map_of_mem ?_)
        rw [hsplit]
        exact List.mem_cons_self
      have hself := visitFrom_eq_none hvisit _ hmem rfl
      rw [Cache.Node.entry, hasher.refl] at hself
      cases hself
    | some ii =>
      have hlookup := lookup_of_visit hvisit
      obtain ⟨v₁, node, v₂, hnode, hii, hcode, hequal⟩ :=
        Cache.lookup_eq_some h.agrees hlookup
      -- the entry that is found is the one of the oldest pair
      have hfirst : v₁ = [] ∧ node = oldest ∧ v₂ = rest := by
        rw [hsplit] at hnode
        cases v₁ with
        | nil =>
          obtain ⟨rfl, rfl⟩ := List.cons.inj hnode
          exact ⟨rfl, rfl, rfl⟩
        | cons first v₁ =>
          obtain ⟨rfl, hrest⟩ := List.cons.inj hnode
          have hapart := h.apart
          rw [hsplit, List.map_cons, List.pairwise_cons] at hapart
          refine absurd (toHasher_equal.mp hequal) (hapart.1 node.key ?_ hcode.symm)
          rw [hrest]
          simp
      obtain ⟨rfl, rfl, rfl⟩ := hfirst
      obtain ⟨after, hevict, hagrees, hvalues, hmax, hsubset⟩ := h.agrees.evict hsplit hlookup hii
      refine ⟨.ok (), after, ?_, ⟨hagrees, ?_, ?_⟩, hmax, hsubset⟩
      · simp only [Cache.evict, hsplit, hlookup, List.head?_cons, Option.bind_eq_bind,
          Option.bind_some] at hevict
        simp only [ThrowingHasher.evict, hsplit, hvisit, List.head?_cons, Option.bind_eq_bind,
          Option.bind_some]
        rw [← Option.some.inj hevict]
        rfl
      · have hapart := h.apart
        rw [hsplit, List.map_cons, List.pairwise_cons] at hapart
        rw [hvalues]
        exact hapart.2
      · intro hzero
        have hempty := h.empty (hmax ▸ hzero)
        rw [hsplit] at hempty
        cases hempty

theorem Sound.makeRoom (h : hasher.Sound cache) (hmax : cache.m_maxSize ≠ 0) :
    ∃ result after, hasher.makeRoom cache = some (result, after) ∧ hasher.Sound after ∧
      after.m_maxSize = cache.m_maxSize ∧ after.m_quickAccess ⊆ cache.m_quickAccess := by
  rcases Decidable.em (cache.isFull = true) with hfull | hroom
  · cases hsplit : cache.m_values with
    | nil =>
      have hsize : cache.size = 0 := by rw [h.agrees.size_eq, hsplit, List.length_nil]
      have hle := cache.m_maxSize.le_toInt
      have hlt := cache.m_maxSize.toInt_lt
      simp only [Cache.isFull, hsize, decide_eq_true_eq] at hfull
      have hzero : cache.m_maxSize.toInt = 0 := by omega
      exact absurd (Int32.toInt_inj.mp hzero) hmax
    | cons oldest rest =>
      rw [ThrowingHasher.makeRoom, if_pos hfull]
      exact h.evict hsplit
  · rw [ThrowingHasher.makeRoom, if_neg hroom]
    exact ⟨.ok (), cache, rfl, h, rfl, List.Subset.refl _⟩

theorem Sound.push (h : hasher.Sound cache) (value : V) (hmax : cache.m_maxSize ≠ 0)
    (hvisit : hasher.visit cache key = .ok none) :
    ∃ after, hasher.push cache key value = (.ok (), after) ∧ hasher.Sound after ∧
      after.m_maxSize = cache.m_maxSize := by
  refine ⟨cache.push hasher.toHasher key value, ?_, ⟨?_, ?_, ?_⟩, rfl⟩
  · rw [ThrowingHasher.push, hvisit, Cache.push, lookup_of_visit hvisit]
    rfl
  · exact h.agrees.push value (lookup_of_visit hvisit) rfl
  · rw [Cache.push, List.map_append, List.pairwise_append]
    refine ⟨h.apart, List.pairwise_singleton _ _, ?_⟩
    intro a ha b hb hhash hequal
    obtain ⟨node, hnode, rfl⟩ := List.mem_map.mp ha
    obtain rfl := List.mem_singleton.mp hb
    have hmem := h.agrees.perm.symm.subset (List.mem_map_of_mem hnode)
    have hother := visitFrom_eq_none hvisit _ hmem hhash
    rw [Cache.Node.entry, hasher.symm _ _ hequal] at hother
    cases hother
  · intro hzero
    exact absurd hzero hmax

theorem Sound.set (h : hasher.Sound cache) (value : V) (hmax : cache.m_maxSize ≠ 0)
    (hvisit : hasher.visit cache key = .ok none) :
    ∃ result after, hasher.set cache key value = some (result, after) ∧ hasher.Sound after ∧
      after.m_maxSize = cache.m_maxSize := by
  obtain ⟨result, room, hroom, hsound, hsize, hsubset⟩ := h.makeRoom hmax
  cases result with
  | error exception =>
    refine ⟨.error exception, room, ?_, hsound, hsize⟩
    simp only [ThrowingHasher.set, hvisit, hroom]
  | ok u =>
    obtain ⟨after, hpush, hafter, hsize'⟩ :=
      hsound.push value (hsize ▸ hmax) (visit_of_subset hvisit hsubset)
    refine ⟨.ok (), after, ?_, hafter, hsize'.trans hsize⟩
    simp only [ThrowingHasher.set, hvisit, hroom, hpush]

theorem Sound.visit_empty (h : hasher.Sound cache) (key : K) (hmax : cache.m_maxSize = 0) :
    hasher.visit cache key = .ok none := by
  have hperm := h.agrees.perm
  rw [h.empty hmax] at hperm
  rw [visit, hperm.eq_nil]
  rfl

/-- A cache without room has no oldest pair. -/
theorem Sound.set_undefined (h : hasher.Sound cache) (key : K) (value : V)
    (hmax : cache.m_maxSize = 0) : hasher.set cache key value = none := by
  have hvalues := h.empty hmax
  have hfull : cache.isFull = true := by
    rw [Cache.isFull, h.agrees.size_eq, hvalues, hmax]
    rfl
  simp [ThrowingHasher.set, h.visit_empty key hmax, ThrowingHasher.makeRoom, hfull,
    ThrowingHasher.evict, hvalues]

end ThrowingHasher

end Coffee.Basis
