import Mathlib.Order.Filter.AtTopBot.Basic
import Mathlib.Order.Filter.Finite
import Mathlib.Logic.Function.Iterate

/-! # Search with pruning

A candidate is extended by one step after the other. Every step is rejected, accepted as the end of
a solution, or extended in turn; what becomes of no solution is dropped.
-/

namespace Coffee.Library.Backtrack

open Filter

universe u v w

section Loop

variable {α : Type u} {σ : Type v}

/-- A `for` loop over a state; `fuel` bounds the number of rounds. -/
def forLoop (stop : α → Bool) (next : α → α) (body : σ → α → Option σ) :
    Nat → α → σ → Option σ
  | 0, _, _ => none
  | fuel + 1, ii, state =>
    if stop ii then some state
    else (body state ii).bind (forLoop stop next body fuel (next ii))

theorem forLoop_eq_foldl {stop : α → Bool} {next : α → α} (body : σ → α → Option σ)
    (step : σ → Nat → σ) (I : σ → Prop) {n fuel : Nat} {ii : α} {s : σ}
    (hrounds : ∀ k < n, stop (next^[k] ii) = false) (hstop : stop (next^[n] ii) = true)
    (hfuel : n < fuel) (hstate : I s)
    (hbody : ∀ k < n, ∀ state, I state →
      body state (next^[k] ii) = some (step state k) ∧ I (step state k)) :
    forLoop stop next body fuel ii s = some ((List.range n).foldl step s) := by
  induction n generalizing fuel ii step s with
  | zero =>
    obtain ⟨fuel, rfl⟩ := Nat.exists_eq_add_one.mpr hfuel
    have hii : stop ii = true := hstop
    rw [forLoop, if_pos hii]
    rfl
  | succ n ih =>
    obtain ⟨fuel, rfl⟩ := Nat.exists_eq_add_one.mpr (Nat.zero_lt_of_lt hfuel)
    have hii : stop ii = false := hrounds 0 (Nat.succ_pos n)
    have hfirst : body s ii = some (step s 0) ∧ I (step s 0) :=
      hbody 0 (Nat.succ_pos n) s hstate
    have hrest := @ih (fun state k => step state (k + 1)) fuel (next ii) (step s 0)
      (fun k hk => hrounds (k + 1) (Nat.succ_lt_succ hk)) hstop (Nat.lt_of_succ_lt_succ hfuel)
      hfirst.2 (fun k hk => hbody (k + 1) (Nat.succ_lt_succ hk))
    rw [forLoop, hii, hfirst.1]
    rw [List.range_succ_eq_map, List.foldl_cons, List.foldl_map]
    exact hrest

end Loop

theorem split_concat {α : Type u} {before mid after : List α} {a b : α}
    (h : before ++ [a] = mid ++ b :: after) :
    mid = before ∧ b = a ∧ after = [] ∨
      ∃ after', before = mid ++ b :: after' ∧ after = after' ++ [a] := by
  rcases List.eq_nil_or_concat' after with rfl | ⟨after', c, rfl⟩
  · obtain ⟨hmid, hb⟩ := List.append_inj' h rfl
    cases hb
    exact .inl ⟨hmid.symm, rfl, rfl⟩
  · rw [← List.cons_append, ← List.append_assoc] at h
    obtain ⟨hbefore, ha⟩ := List.append_inj' h rfl
    cases ha
    exact .inr ⟨after', hbefore, rfl⟩

theorem eventually_of_succ {P : Nat → Prop} (h : ∀ᶠ n in atTop, P (n + 1)) :
    ∀ᶠ n in atTop, P n := by
  obtain ⟨m, hm⟩ := eventually_atTop.mp h
  refine eventually_atTop.mpr ⟨m + 1, fun n hn => ?_⟩
  obtain ⟨n, rfl⟩ := Nat.exists_eq_add_of_le' hn
  exact hm (n + m) (Nat.le_add_left m n)

/-- What extends a candidate, in order, and what is made of each extension. -/
structure Space (α : Type u) where
  enumeration : List α → List α
  rejected : List α → α → Bool
  accepted : List α → α → Bool

namespace Space

variable {α : Type u} {β : Type v} {τ : Type w} (space : Space α)

/-- The extensions of `before` that end accepted, searched to the depth `bound`. -/
def leaves : Nat → List α → List (List α)
  | 0, _ => []
  | bound + 1, before => (space.enumeration before).flatMap fun a =>
      if space.rejected before a then []
      else if space.accepted before a then [[a]]
      else (leaves bound (before ++ [a])).map (a :: ·)

/-- The same search that builds a tree and drops the nodes under which nothing was found. -/
def forest (node : α → List τ → τ) : Nat → List α → List τ
  | 0, _ => []
  | bound + 1, before => (space.enumeration before).flatMap fun a =>
      if space.rejected before a then []
      else if space.accepted before a then [node a []]
      else if (forest node bound (before ++ [a])).isEmpty then []
      else [node a (forest node bound (before ++ [a]))]

/-- The steps of `rest` are open one after the other: enumerated, not rejected and not accepted. -/
def Open (before rest : List α) : Prop :=
  ∀ mid a after, rest = mid ++ a :: after → a ∈ space.enumeration (before ++ mid) ∧
    space.rejected (before ++ mid) a = false ∧ space.accepted (before ++ mid) a = false

/-- The steps of `rest` are enumerated and not rejected, and the last one alone is accepted. -/
def Completes (before rest : List α) : Prop :=
  rest ≠ [] ∧ ∀ mid a after, rest = mid ++ a :: after → a ∈ space.enumeration (before ++ mid) ∧
    space.rejected (before ++ mid) a = false ∧
      (space.accepted (before ++ mid) a = true ↔ after = [])

variable {space}

theorem open_nil (before : List α) : space.Open before [] := by
  intro mid a after h
  simp at h

theorem open_cons {before rest : List α} {a : α} (hmem : a ∈ space.enumeration before)
    (hrejected : space.rejected before a = false) (haccepted : space.accepted before a = false)
    (hrest : space.Open (before ++ [a]) rest) : space.Open before (a :: rest) := by
  intro mid b after h
  cases mid with
  | nil =>
    cases h
    simpa using ⟨hmem, hrejected, haccepted⟩
  | cons c mid =>
    cases h
    simpa using hrest mid b after rfl

theorem Open.tail {before rest : List α} {a : α} (h : space.Open before (a :: rest)) :
    space.Open (before ++ [a]) rest := by
  intro mid b after hb
  have hb : a :: rest = (a :: mid) ++ b :: after := by rw [hb, List.cons_append]
  simpa using h (a :: mid) b after hb

theorem completes_cons_iff {before rest : List α} {a : α} :
    space.Completes before (a :: rest) ↔
      a ∈ space.enumeration before ∧ space.rejected before a = false ∧
        (space.accepted before a = true ∧ rest = [] ∨
          space.accepted before a = false ∧ space.Completes (before ++ [a]) rest) := by
  constructor
  · rintro ⟨-, h⟩
    have hfirst : a ∈ space.enumeration before ∧ space.rejected before a = false ∧
        (space.accepted before a = true ↔ rest = []) := by simpa using h [] a rest rfl
    obtain ⟨hmem, hrejected, haccepted⟩ := hfirst
    refine ⟨hmem, hrejected, ?_⟩
    by_cases hrest : rest = []
    · exact .inl ⟨haccepted.mpr hrest, hrest⟩
    · refine .inr ⟨Bool.eq_false_iff.mpr fun hyes => hrest (haccepted.mp hyes), hrest, ?_⟩
      intro mid b after hb
      have hb : a :: rest = (a :: mid) ++ b :: after := by rw [hb, List.cons_append]
      simpa using h (a :: mid) b after hb
  · rintro ⟨hmem, hrejected, hcase⟩
    refine ⟨List.cons_ne_nil a rest, ?_⟩
    intro mid b after h
    cases mid with
    | nil =>
      cases h
      rcases hcase with ⟨hyes, rfl⟩ | ⟨hno, hnonempty, -⟩
      · simpa using ⟨hmem, hrejected, hyes⟩
      · simpa [hno, hnonempty] using ⟨hmem, hrejected⟩
    | cons c mid =>
      cases h
      rcases hcase with ⟨-, hnil⟩ | ⟨-, -, hrest⟩
      · simp at hnil
      · simpa using hrest mid b after rfl

theorem mem_leaves_iff {bound : Nat} {before rest : List α}
    (hbound : ∀ mid, space.Open before mid → mid.length < bound) :
    rest ∈ space.leaves bound before ↔ space.Completes before rest := by
  induction bound generalizing before rest with
  | zero => exact absurd (hbound [] (open_nil before)) (Nat.not_lt_zero 0)
  | succ bound ih =>
    have hbelow : ∀ a ∈ space.enumeration before, space.rejected before a = false →
        space.accepted before a = false →
        ∀ mid, space.Open (before ++ [a]) mid → mid.length < bound := by
      intro a hmem hrejected haccepted mid hmid
      exact Nat.lt_of_succ_lt_succ (hbound (a :: mid) (open_cons hmem hrejected haccepted hmid))
    rw [leaves, List.mem_flatMap]
    constructor
    · rintro ⟨a, hmem, hrest⟩
      split at hrest
      · cases hrest
      · rename_i hrejected
        rw [Bool.not_eq_true] at hrejected
        split at hrest
        · rename_i haccepted
          cases List.mem_singleton.mp hrest
          exact completes_cons_iff.mpr ⟨hmem, hrejected, .inl ⟨haccepted, rfl⟩⟩
        · rename_i haccepted
          rw [Bool.not_eq_true] at haccepted
          obtain ⟨tail, htail, rfl⟩ := List.mem_map.mp hrest
          have htail := (ih (hbelow a hmem hrejected haccepted)).mp htail
          exact completes_cons_iff.mpr ⟨hmem, hrejected, .inr ⟨haccepted, htail⟩⟩
    · intro hrest
      cases rest with
      | nil => exact absurd rfl hrest.1
      | cons a tail =>
        obtain ⟨hmem, hrejected, hcase⟩ := completes_cons_iff.mp hrest
        refine ⟨a, hmem, ?_⟩
        rw [hrejected, if_neg Bool.false_ne_true]
        rcases hcase with ⟨haccepted, rfl⟩ | ⟨haccepted, htail⟩
        · rw [if_pos haccepted]
          exact List.mem_singleton_self [a]
        · rw [haccepted, if_neg Bool.false_ne_true]
          exact List.mem_map.mpr ⟨tail, (ih (hbelow a hmem hrejected haccepted)).mpr htail, rfl⟩

theorem head_of_mem_branch {bound : Nat} {before rest : List α} {a : α}
    (h : rest ∈ if space.rejected before a then [] else if space.accepted before a then [[a]]
      else (space.leaves bound (before ++ [a])).map (a :: ·)) : ∃ tail, rest = a :: tail := by
  split at h
  · cases h
  · split at h
    · exact ⟨[], List.mem_singleton.mp h⟩
    · obtain ⟨tail, -, rfl⟩ := List.mem_map.mp h
      exact ⟨tail, rfl⟩

theorem pairwise_leaves {r : α → α → Prop} (h : ∀ before, (space.enumeration before).Pairwise r)
    (bound : Nat) (before : List α) : (space.leaves bound before).Pairwise (List.Lex r) := by
  induction bound generalizing before with
  | zero => exact List.Pairwise.nil
  | succ bound ih =>
    rw [leaves, List.pairwise_flatMap]
    constructor
    · intro a _
      split
      · exact List.Pairwise.nil
      · split
        · exact List.pairwise_singleton (List.Lex r) [a]
        · rw [List.pairwise_map]
          exact (ih (before ++ [a])).imp List.Lex.cons
    · refine (h before).imp ?_
      intro a b hab rest hrest rest' hrest'
      obtain ⟨tail, rfl⟩ := head_of_mem_branch hrest
      obtain ⟨tail', rfl⟩ := head_of_mem_branch hrest'
      exact List.Lex.rel hab

theorem flatMap_forest {node : α → List τ → τ} {label : α → β} {paths : τ → List (List β)}
    (hleaf : ∀ a, paths (node a []) = [[label a]])
    (hnode : ∀ a below, below ≠ [] →
      paths (node a below) = (below.flatMap paths).map (label a :: ·))
    (bound : Nat) (before : List α) :
    (space.forest node bound before).flatMap paths =
      (space.leaves bound before).map (List.map label) := by
  induction bound generalizing before with
  | zero => rfl
  | succ bound ih =>
    rw [forest, leaves, List.flatMap_assoc, List.map_flatMap]
    congr 1
    funext a
    split
    · rfl
    · split
      · simp [hleaf]
      · have hbelow := ih (before ++ [a])
        split
        · rename_i hempty
          rw [List.isEmpty_iff.mp hempty] at hbelow
          rw [List.map_eq_nil_iff.mp hbelow.symm]
          rfl
        · rename_i hempty
          have hnonempty : space.forest node bound (before ++ [a]) ≠ [] := fun hnil => by
            simp [hnil] at hempty
          simp [hnode a _ hnonempty, hbelow, Function.comp_def]

end Space

end Coffee.Library.Backtrack
