import Mathlib.Data.List.Basic
import Mathlib.Data.List.Perm.Basic

/-! # A bounded recency list

Key and value pairs from the least to the most recently used one, with at most one pair for a key.
Keys are compared by an equivalence that need not be equality.
-/

namespace Coffee.Library.Recency

variable {κ ν : Type*} (same : κ → κ → Bool)

def find (key : κ) (pairs : List (κ × ν)) : Option (κ × ν) × List (κ × ν) :=
  match pairs.find? fun pair => same key pair.1 with
  | none => (none, pairs)
  | some pair => (some pair, pairs.eraseP (fun pair => same key pair.1) ++ [pair])

/-- A new key at full capacity displaces the least recently used pair. -/
def set (maxSize : Nat) (key : κ) (value : ν) (pairs : List (κ × ν)) : List (κ × ν) :=
  match pairs.find? fun pair => same key pair.1 with
  | none => (if pairs.length = maxSize then pairs.tail else pairs) ++ [(key, value)]
  | some pair => pairs.eraseP (fun pair => same key pair.1) ++ [(pair.1, value)]

def erase (key : κ) (pairs : List (κ × ν)) : Bool × List (κ × ν) :=
  (pairs.any fun pair => same key pair.1, pairs.eraseP fun pair => same key pair.1)

def Distinct (pairs : List (κ × ν)) : Prop :=
  (pairs.map Prod.fst).Pairwise fun a b => same a b = false

variable {same} {maxSize : Nat} {key : κ} {value : ν} {pair : κ × ν} {pairs l₁ l₂ : List (κ × ν)}

theorem find?_of_new (h : ∀ pair ∈ pairs, same key pair.1 = false) :
    pairs.find? (fun pair => same key pair.1) = none :=
  List.find?_eq_none.mpr fun pair hpair => by simp [h pair hpair]

theorem find?_of_known (hl₁ : ∀ other ∈ l₁, same key other.1 = false)
    (hpair : same key pair.1 = true) :
    (l₁ ++ pair :: l₂).find? (fun pair => same key pair.1) = some pair := by
  rw [List.find?_append, find?_of_new hl₁]
  simp [hpair]

theorem eraseP_of_known (hl₁ : ∀ other ∈ l₁, same key other.1 = false)
    (hpair : same key pair.1 = true) :
    (l₁ ++ pair :: l₂).eraseP (fun pair => same key pair.1) = l₁ ++ l₂ := by
  rw [List.eraseP_append_right (p := fun pair : κ × ν => same key pair.1) _
    fun other hother => by simp [hl₁ other hother]]
  rw [List.eraseP_cons_of_pos (p := fun pair : κ × ν => same key pair.1) hpair]

theorem find_new (h : ∀ pair ∈ pairs, same key pair.1 = false) :
    find same key pairs = (none, pairs) := by
  rw [find, find?_of_new h]

theorem find_known (hl₁ : ∀ other ∈ l₁, same key other.1 = false) (hpair : same key pair.1 = true) :
    find same key (l₁ ++ pair :: l₂) = (some pair, l₁ ++ l₂ ++ [pair]) := by
  rw [find, find?_of_known hl₁ hpair, eraseP_of_known hl₁ hpair]

theorem mem_of_find (h : (find same key pairs).1 = some pair) :
    pair ∈ pairs ∧ same key pair.1 = true := by
  rw [find] at h
  split at h
  · cases h
  · next hfind =>
    cases h
    exact ⟨List.mem_of_find?_eq_some hfind,
      List.find?_some (p := fun pair : κ × ν => same key pair.1) hfind⟩

theorem find_eq_none (h : (find same key pairs).1 = none) :
    (find same key pairs).2 = pairs ∧ ∀ pair ∈ pairs, same key pair.1 = false := by
  rw [find] at h ⊢
  split at h
  · next hfind =>
    exact ⟨rfl, fun pair hpair => by simpa using List.find?_eq_none.mp hfind pair hpair⟩
  · cases h

theorem find_subset (key : κ) (pairs : List (κ × ν)) : (find same key pairs).2 ⊆ pairs := by
  rw [find]
  split
  · exact List.Subset.refl _
  · next hfind =>
    intro other hother
    rcases List.mem_append.mp hother with hother | hother
    · exact List.eraseP_subset hother
    · exact List.mem_singleton.mp hother ▸ List.mem_of_find?_eq_some hfind

theorem set_new (h : ∀ pair ∈ pairs, same key pair.1 = false) :
    set same maxSize key value pairs =
      (if pairs.length = maxSize then pairs.tail else pairs) ++ [(key, value)] := by
  rw [set, find?_of_new h]

theorem set_known (hl₁ : ∀ other ∈ l₁, same key other.1 = false) (hpair : same key pair.1 = true) :
    set same maxSize key value (l₁ ++ pair :: l₂) = l₁ ++ l₂ ++ [(pair.1, value)] := by
  rw [set, find?_of_known hl₁ hpair, eraseP_of_known hl₁ hpair]

theorem mem_set_of_new (h : ∀ pair ∈ pairs, same key pair.1 = false)
    (hpair : pair ∈ set same maxSize key value pairs) : pair ∈ pairs ∨ pair = (key, value) := by
  rw [set_new h] at hpair
  rcases List.mem_append.mp hpair with hpair | hpair
  · split at hpair
    · exact .inl (List.mem_of_mem_tail hpair)
    · exact .inl hpair
  · exact .inr (List.mem_singleton.mp hpair)

theorem erase_new (h : ∀ pair ∈ pairs, same key pair.1 = false) :
    erase same key pairs = (false, pairs) := by
  have hany : (pairs.any fun pair => same key pair.1) = false :=
    List.any_eq_false.mpr fun pair hpair => by simp [h pair hpair]
  rw [erase, hany, List.eraseP_of_forall_not (p := fun pair : κ × ν => same key pair.1)
    fun pair hpair => by simp [h pair hpair]]

theorem erase_known (hl₁ : ∀ other ∈ l₁, same key other.1 = false) (hpair : same key pair.1 = true) :
    erase same key (l₁ ++ pair :: l₂) = (true, l₁ ++ l₂) := by
  rw [erase, eraseP_of_known hl₁ hpair]
  simp [hpair]

theorem Distinct.sublist {pairs' : List (κ × ν)} (h : Distinct same pairs)
    (hsub : pairs'.Sublist pairs) : Distinct same pairs' := List.Pairwise.sublist (hsub.map _) h

section Equivalence

variable (hsymm : ∀ a b, same a b = true → same b a = true)
include hsymm

theorem symm_false {a b : κ} (h : same a b = false) : same b a = false := by
  by_contra hba
  rw [Bool.not_eq_false] at hba
  rw [hsymm b a hba] at h
  cases h

theorem Distinct.concat (h : Distinct same pairs) (hnew : ∀ pair ∈ pairs, same key pair.1 = false) :
    Distinct same (pairs ++ [(key, value)]) := by
  rw [Distinct, List.map_append, List.pairwise_append]
  refine ⟨h, List.pairwise_singleton _ _, fun a ha b hb => ?_⟩
  obtain ⟨pair, hpair, rfl⟩ := List.mem_map.mp ha
  simp only [List.map_cons, List.map_nil, List.mem_singleton] at hb
  exact hb ▸ symm_false hsymm (hnew pair hpair)

theorem Distinct.move (h : Distinct same (l₁ ++ pair :: l₂)) :
    Distinct same (l₁ ++ l₂ ++ [(pair.1, value)]) := by
  have hperm : ((l₁ ++ pair :: l₂).map Prod.fst).Perm
      ((l₁ ++ l₂ ++ [(pair.1, value)]).map Prod.fst) := by
    simp only [List.map_append, List.map_cons, List.map_nil]
    exact List.perm_middle.trans (List.perm_append_singleton _ _).symm
  exact (hperm.pairwise_iff fun hab => symm_false hsymm hab).mp h

theorem Distinct.before (htrans : ∀ a b c, same a b = true → same b c = true → same a c = true)
    (h : Distinct same (l₁ ++ pair :: l₂)) (hkey : same key pair.1 = true) :
    ∀ other ∈ l₁, same key other.1 = false := by
  intro other hother
  rw [Distinct, List.map_append, List.pairwise_append] at h
  have hne := h.2.2 other.1 (List.mem_map_of_mem hother) pair.1 (by simp)
  by_contra hsame
  rw [Bool.not_eq_false] at hsame
  rw [htrans _ _ _ (hsymm _ _ hsame) hkey] at hne
  cases hne

theorem Distinct.mem_erase (htrans : ∀ a b c, same a b = true → same b c = true → same a c = true)
    (h : Distinct same pairs) (hpair : pair ∈ (erase same key pairs).2) :
    pair ∈ pairs ∧ same key pair.1 = false := by
  refine ⟨List.eraseP_subset hpair, ?_⟩
  cases hfind : pairs.find? fun pair => same key pair.1 with
  | none => simpa using List.find?_eq_none.mp hfind pair (List.eraseP_subset hpair)
  | some known =>
    obtain ⟨hknown, l₁, l₂, rfl, hl₁⟩ := List.find?_eq_some_iff_append.mp hfind
    have hbefore : ∀ other ∈ l₁, same key other.1 = false := fun other hother => by
      simpa using hl₁ other hother
    rw [erase_known hbefore hknown] at hpair
    rcases List.mem_append.mp hpair with hpair | hpair
    · exact hbefore pair hpair
    · rw [Distinct, List.map_append, List.map_cons, List.pairwise_append, List.pairwise_cons] at h
      have hne := h.2.1.1 pair.1 (List.mem_map_of_mem hpair)
      by_contra hsame
      rw [Bool.not_eq_false] at hsame
      rw [htrans _ _ _ (hsymm _ _ hknown) hsame] at hne
      cases hne

end Equivalence

end Coffee.Library.Recency
