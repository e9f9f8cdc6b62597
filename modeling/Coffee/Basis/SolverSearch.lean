import Coffee.Basis.Backtracking
import Mathlib.Data.Nat.Find

/-! # What the backtracking solver finds

The search of `Solver::apply` against the solutions of its problem. The choices are searched as a
space with pruning, and the tree is the one that this search builds.
-/

namespace Coffee.Basis.Pattern.Backtracking

open Coffee.Library.Backtrack Filter

universe u

variable {T : Type u}

namespace Problem

variable (problem : Problem T)

/-! ## The search over choices -/

open Classical in
/-- The number of candidates behind `before`, and `0` where the enumeration has no end. -/
noncomputable def extent (before : List (Nat × T)) : Nat :=
  if h : ∃ n, problem.stop before.length (problem.candidateAt before n) = true then Nat.find h
  else 0

def choiceAt (before : List (Nat × T)) (position : Nat) : Nat × T :=
  (position, problem.candidateAt before position)

/-- The candidates at depth `0` are neither rejected nor accepted. -/
noncomputable def space : Space (Nat × T) where
  enumeration before := (List.range (problem.extent before)).map (problem.choiceAt before)
  rejected before c := !before.isEmpty && problem.reject (chain before) c.2
  accepted before c := !before.isEmpty && problem.accept (chain before) c.2

variable {problem}

theorem stop_extent {before : List (Nat × T)}
    (h : ∃ n, problem.stop before.length (problem.candidateAt before n) = true) :
    problem.stop before.length (problem.candidateAt before (problem.extent before)) = true := by
  classical
  rw [extent, dif_pos h]
  exact Nat.find_spec h

theorem not_stop_of_lt_extent {before : List (Nat × T)} {position : Nat}
    (h : position < problem.extent before) :
    problem.stop before.length (problem.candidateAt before position) = false := by
  classical
  rw [extent] at h
  split at h
  · rename_i hex
    simpa using Nat.find_min hex h
  · cases h

theorem lt_extent {before : List (Nat × T)} {position : Nat}
    (h : ∃ n, problem.stop before.length (problem.candidateAt before n) = true)
    (hrun : ∀ k ≤ position, problem.stop before.length (problem.candidateAt before k) = false) :
    position < problem.extent before := by
  by_contra hle
  have hstop := stop_extent h
  rw [hrun _ (Nat.le_of_not_lt hle)] at hstop
  cases hstop

theorem produces_of_mem {before : List (Nat × T)} {c : Nat × T}
    (h : c ∈ problem.space.enumeration before) : problem.Produces before c := by
  obtain ⟨position, hposition, rfl⟩ := List.mem_map.mp h
  refine ⟨rfl, fun k hk => ?_⟩
  exact not_stop_of_lt_extent (Nat.lt_of_le_of_lt hk (List.mem_range.mp hposition))

theorem mem_enumeration {before : List (Nat × T)} {c : Nat × T}
    (h : ∃ n, problem.stop before.length (problem.candidateAt before n) = true)
    (hproduces : problem.Produces before c) : c ∈ problem.space.enumeration before := by
  obtain ⟨hvalue, hrun⟩ := hproduces
  refine List.mem_map.mpr ⟨c.1, List.mem_range.mpr (lt_extent h hrun), ?_⟩
  rw [choiceAt, ← hvalue]

theorem choiceAt_mem {before : List (Nat × T)} {position : Nat}
    (h : position < problem.extent before) :
    problem.choiceAt before position ∈ problem.space.enumeration before :=
  List.mem_map_of_mem (List.mem_range.mpr h)

theorem pairwise_enumeration (before : List (Nat × T)) :
    (problem.space.enumeration before).Pairwise fun c d => c.1 < d.1 := by
  rw [space, List.pairwise_map]
  exact List.pairwise_lt_range

theorem rejected_eq_false_iff {before : List (Nat × T)} {c : Nat × T} :
    problem.space.rejected before c = false ↔
      (before ≠ [] → problem.reject (chain before) c.2 = false) := by
  cases before <;> simp [space]

theorem accepted_eq_true_iff {before : List (Nat × T)} {c : Nat × T} :
    problem.space.accepted before c = true ↔
      before ≠ [] ∧ problem.accept (chain before) c.2 = true := by
  cases before <;> simp [space]

theorem isOpen_nil : problem.IsOpen [] :=
  ⟨fun _ _ _ h => by simp at h, fun _ _ _ h => by simp at h, fun _ _ _ h => by simp at h⟩

theorem isOpen_concat {before : List (Nat × T)} {c : Nat × T} (hbefore : problem.IsOpen before)
    (hmem : c ∈ problem.space.enumeration before)
    (hrejected : problem.space.rejected before c = false)
    (haccepted : problem.space.accepted before c = false) : problem.IsOpen (before ++ [c]) := by
  constructor
  · intro mid d after h
    rcases split_concat h with ⟨rfl, rfl, -⟩ | ⟨after', h, -⟩
    · exact produces_of_mem hmem
    · exact hbefore.produced mid d after' h
  · intro mid d after h hmid
    rcases split_concat h with ⟨rfl, rfl, -⟩ | ⟨after', h, -⟩
    · exact rejected_eq_false_iff.mp hrejected hmid
    · exact hbefore.not_rejected mid d after' h hmid
  · intro mid d after h hmid
    rcases split_concat h with ⟨rfl, rfl, -⟩ | ⟨after', h, -⟩
    · refine Bool.eq_false_iff.mpr fun hyes => ?_
      rw [accepted_eq_true_iff.mpr ⟨hmid, hyes⟩] at haccepted
      cases haccepted
    · exact hbefore.not_accepted mid d after' h hmid

theorem isOpen_append {before rest : List (Nat × T)} (hbefore : problem.IsOpen before)
    (hrest : problem.space.Open before rest) : problem.IsOpen (before ++ rest) := by
  induction rest generalizing before with
  | nil => simpa using hbefore
  | cons c rest ih =>
    obtain ⟨hmem, hrejected, haccepted⟩ := hrest [] c rest rfl
    rw [List.append_nil] at hmem hrejected haccepted
    have hopen := ih (isOpen_concat hbefore hmem hrejected haccepted) hrest.tail
    rwa [List.append_assoc] at hopen

theorem IsSolution.isOpen {before after : List (Nat × T)} {c : Nat × T}
    (h : problem.IsSolution (before ++ c :: after)) : problem.IsOpen before := by
  have hsplit : ∀ {mid d rest}, before = mid ++ d :: rest →
      before ++ c :: after = mid ++ d :: (rest ++ c :: after) := by
    rintro mid d rest rfl
    simp
  constructor
  · intro mid d rest hmid
    exact h.produced mid d _ (hsplit hmid)
  · intro mid d rest hmid
    exact h.not_rejected mid d _ (hsplit hmid)
  · intro mid d rest hmid hne
    refine Bool.eq_false_iff.mpr fun hyes => ?_
    have hnil := (h.accepted_iff mid d _ (hsplit hmid) hne).mp hyes
    simp at hnil

/-- The solutions are the completions of the empty choice. -/
theorem isSolution_iff_completes (finite : problem.Finite) {choice : List (Nat × T)} :
    problem.IsSolution choice ↔ problem.space.Completes [] choice := by
  constructor
  · intro h
    refine ⟨?_, ?_⟩
    · rintro rfl
      exact absurd h.two_le (by simp)
    · rintro mid c after rfl
      rw [List.nil_append]
      refine ⟨mem_enumeration (finite mid h.isOpen) (h.produced mid c after rfl), ?_, ?_⟩
      · exact rejected_eq_false_iff.mpr (h.not_rejected mid c after rfl)
      · rw [accepted_eq_true_iff]
        constructor
        · rintro ⟨hmid, hyes⟩
          exact (h.accepted_iff mid c after rfl hmid).mp hyes
        · rintro rfl
          have hmid : mid ≠ [] := by
            rintro rfl
            exact absurd h.two_le (by simp)
          exact ⟨hmid, (h.accepted_iff mid c [] rfl hmid).mpr rfl⟩
  · rintro ⟨hne, h⟩
    simp only [List.nil_append] at h
    constructor
    · match choice with
      | [] => exact absurd rfl hne
      | [c] =>
        have haccepted := (h [] c [] rfl).2.2.mpr rfl
        exact absurd rfl (accepted_eq_true_iff.mp haccepted).1
      | c :: d :: rest => simp
    · intro mid c after hmid
      exact produces_of_mem (h mid c after hmid).1
    · intro mid c after hmid
      exact rejected_eq_false_iff.mp (h mid c after hmid).2.1
    · intro mid c after hmid hne
      rw [← (h mid c after hmid).2.2, accepted_eq_true_iff]
      exact ⟨fun hyes => ⟨hne, hyes⟩, fun hyes => hyes.2⟩

/-! ## The tree -/

noncomputable def solutions (problem : Problem T) (bound : Nat) (before : List (Nat × T)) :
    List (TreeNode T) :=
  problem.space.forest (fun c below => ⟨c.2, below⟩) bound before

/-- What `backtracking` adds for the candidate at a position. -/
noncomputable def branch (problem : Problem T) (bound : Nat) (before : List (Nat × T))
    (position : Nat) : List (TreeNode T) :=
  let c := problem.choiceAt before position
  if problem.space.rejected before c then []
  else if problem.space.accepted before c then [⟨c.2, []⟩]
  else if (problem.solutions bound (before ++ [c])).isEmpty then []
  else [⟨c.2, problem.solutions bound (before ++ [c])⟩]

theorem solutions_succ (bound : Nat) (before : List (Nat × T)) :
    problem.solutions (bound + 1) before =
      (List.range (problem.extent before)).flatMap (problem.branch bound before) := by
  rw [solutions, Space.forest]
  simp only [space, List.flatMap_map]
  rfl

/-- Once there is fuel enough, the call adds to a node what the candidates behind it come to. -/
def Explores (problem : Problem T) (before : List (Nat × T)) (c : Nat × T)
    (below : List (TreeNode T)) : Prop :=
  ∀ᶠ fuel in atTop, ∀ node : TreeNode T, node.getValue = c.2 →
    problem.exploreSolutions fuel (before.length + 1) (chain before) node =
      some (!below.isEmpty, node.append below)

theorem backtracking_eq {bound position : Nat} {before : List (Nat × T)} {d : Nat × T}
    (hbelow : problem.space.rejected (before ++ [d])
        (problem.choiceAt (before ++ [d]) position) = false →
      problem.space.accepted (before ++ [d])
        (problem.choiceAt (before ++ [d]) position) = false →
      problem.Explores (before ++ [d]) (problem.choiceAt (before ++ [d]) position)
        (problem.solutions bound (before ++ [d] ++ [problem.choiceAt (before ++ [d]) position]))) :
    ∀ᶠ fuel in atTop, ∀ node : TreeNode T, node.getValue = d.2 →
      problem.backtracking fuel (before.length + 1) (chain before) node
          (problem.candidateAt (before ++ [d]) position) =
        some (!(problem.branch bound (before ++ [d]) position).isEmpty,
          node.append (problem.branch bound (before ++ [d]) position)) := by
  set c := problem.choiceAt (before ++ [d]) position with hc
  have hcandidate : problem.candidateAt (before ++ [d]) position = c.2 := rfl
  have hrejected : problem.space.rejected (before ++ [d]) c =
      problem.reject (d.2 :: chain before) c.2 := by simp [space, chain_concat]
  have haccepted : problem.space.accepted (before ++ [d]) c =
      problem.accept (d.2 :: chain before) c.2 := by simp [space, chain_concat]
  apply eventually_of_succ
  simp only [branch, ← hc, hcandidate]
  rw [hrejected, haccepted] at hbelow ⊢
  by_cases hreject : problem.reject (d.2 :: chain before) c.2
  · refine Eventually.of_forall fun fuel node hnode => ?_
    simp [backtracking, hnode, hreject]
  by_cases haccept : problem.accept (d.2 :: chain before) c.2
  · refine Eventually.of_forall fun fuel node hnode => ?_
    simp [backtracking, hnode, hreject, haccept, TreeNode.add_eq_append]
  have hexplore := hbelow (Bool.eq_false_iff.mpr hreject) (Bool.eq_false_iff.mpr haccept)
  refine hexplore.mono fun fuel hfuel node hnode => ?_
  have hcall := hfuel ⟨c.2, []⟩ rfl
  rw [chain_concat, List.length_append, List.length_singleton] at hcall
  simp only [backtracking, hnode, hreject, haccept, hcall, Option.map_some]
  cases hsolutions : problem.solutions bound (before ++ [d] ++ [c]) with
  | nil => simp
  | cons treeNode below => simp [TreeNode.add_eq_append, TreeNode.append]

/-- One pass of a loop that adds, position by position, to a node. -/
theorem foldl_append (f : Nat → List (TreeNode T)) (positions : List Nat) (found : Bool)
    (node : TreeNode T) :
    positions.foldl (fun state k => (state.1 || !(f k).isEmpty, state.2.append (f k)))
        (found, node) =
      (found || !(positions.flatMap f).isEmpty, node.append (positions.flatMap f)) := by
  induction positions generalizing found node with
  | nil => simp
  | cons k positions ih =>
    rw [List.foldl_cons, ih, List.flatMap_cons, TreeNode.append_append]
    cases f k <;> simp

theorem exploreSolutions_eq (finite : problem.Finite) {bound : Nat} {before : List (Nat × T)}
    {d : Nat × T} (hopen : problem.IsOpen (before ++ [d]))
    (hbound : ∀ rest, problem.space.Open (before ++ [d]) rest → rest.length < bound) :
    problem.Explores before d (problem.solutions bound (before ++ [d])) := by
  induction bound generalizing before d with
  | zero => exact absurd (hbound [] (Space.open_nil _)) (Nat.not_lt_zero 0)
  | succ bound ih =>
    have hbacktracking : ∀ k < problem.extent (before ++ [d]), ∀ᶠ fuel in atTop,
        ∀ node : TreeNode T, node.getValue = d.2 →
          problem.backtracking fuel (before.length + 1) (chain before) node
              (problem.candidateAt (before ++ [d]) k) =
            some (!(problem.branch bound (before ++ [d]) k).isEmpty,
              node.append (problem.branch bound (before ++ [d]) k)) := by
      intro k hk
      refine backtracking_eq fun hrejected haccepted => ?_
      have hmem := choiceAt_mem hk
      refine ih (isOpen_concat hopen hmem hrejected haccepted) fun rest hrest => ?_
      have hlength := hbound _ (Space.open_cons hmem hrejected haccepted hrest)
      exact Nat.lt_of_succ_lt_succ hlength
    have hall := (eventually_all_finset (Finset.range (problem.extent (before ++ [d])))).mpr
      fun k hk => hbacktracking k (Finset.mem_range.mp hk)
    apply eventually_of_succ
    filter_upwards [hall, eventually_gt_atTop (problem.extent (before ++ [d]))] with
      fuel hfuel hextent node hnode
    have hcandidate : ∀ k, (problem.next (before.length + 1))^[k]
        (problem.first (before.length + 1) node.getValue) =
          problem.candidateAt (before ++ [d]) k := by
      intro k
      rw [candidateAt, predeccessor_concat, hnode, List.length_append, List.length_singleton]
    have hlength : (before ++ [d]).length = before.length + 1 := by simp
    have hstop := stop_extent (finite _ hopen)
    have hrounds : ∀ k < problem.extent (before ++ [d]),
        problem.stop (before.length + 1) ((problem.next (before.length + 1))^[k]
          (problem.first (before.length + 1) node.getValue)) = false := by
      intro k hk
      rw [hcandidate, ← hlength]
      exact not_stop_of_lt_extent hk
    rw [hlength, ← hcandidate] at hstop
    have hloop := forLoop_eq_foldl
      (fun (state : Bool × TreeNode T) ii =>
        (problem.backtracking fuel (before.length + 1) (chain before) state.2 ii).map
          fun result => (state.1 || result.1, result.2))
      (fun state k => (state.1 || !(problem.branch bound (before ++ [d]) k).isEmpty,
        state.2.append (problem.branch bound (before ++ [d]) k)))
      (fun state => state.2.getValue = d.2) (s := (false, node)) hrounds hstop hextent hnode
      (by
        intro k hk state hstate
        rw [hcandidate, hfuel k (Finset.mem_range.mpr hk) state.2 hstate]
        exact ⟨rfl, hstate⟩)
    rw [foldl_append] at hloop
    rw [exploreSolutions, solutions_succ]
    exact hloop

/-! ## The solver -/

theorem apply_eq (finite : problem.Finite) {bound : Nat}
    (hbound : ∀ choice, problem.space.Open [] choice → choice.length < bound)
    (solver : TreeNode T) :
    ∀ᶠ fuel in atTop, problem.apply fuel solver =
      some (!(problem.solutions bound []).isEmpty,
        ⟨solver.getValue, problem.solutions bound []⟩) := by
  obtain ⟨bound, rfl⟩ := Nat.exists_eq_add_one.mpr (hbound [] (Space.open_nil []))
  have hexplore : ∀ k < problem.extent [], ∀ᶠ fuel in atTop, ∀ node : TreeNode T,
      node.getValue = problem.candidateAt [] k →
        problem.exploreSolutions fuel 1 [] node =
          some (!(problem.solutions bound [problem.choiceAt [] k]).isEmpty,
            node.append (problem.solutions bound [problem.choiceAt [] k])) := by
    intro k hk
    have hmem := choiceAt_mem hk
    have hopen : problem.IsOpen ([] ++ [problem.choiceAt [] k]) :=
      isOpen_concat isOpen_nil hmem rfl rfl
    refine exploreSolutions_eq finite hopen fun rest hrest => ?_
    exact Nat.lt_of_succ_lt_succ (hbound _ (Space.open_cons hmem rfl rfl hrest))
  have hall := (eventually_all_finset (Finset.range (problem.extent []))).mpr
    fun k hk => hexplore k (Finset.mem_range.mp hk)
  filter_upwards [hall, eventually_gt_atTop (problem.extent [])] with fuel hfuel hextent
  have hbody : ∀ k < problem.extent [], ∀ node : TreeNode T,
      ((problem.exploreSolutions fuel 1 [] ⟨problem.candidateAt [] k, []⟩).map fun result =>
          if result.1 then node.add result.2 else node) =
        some (node.append (problem.branch bound [] k)) := by
    intro k hk node
    have hcall := hfuel k (Finset.mem_range.mpr hk) ⟨problem.candidateAt [] k, []⟩ rfl
    have hbranch : problem.branch bound [] k =
        if (problem.solutions bound [problem.choiceAt [] k]).isEmpty then []
        else [⟨problem.candidateAt [] k, problem.solutions bound [problem.choiceAt [] k]⟩] := rfl
    rw [hcall, hbranch]
    cases problem.solutions bound [problem.choiceAt [] k] with
    | nil => simp
    | cons treeNode below => simp [TreeNode.add_eq_append, TreeNode.append]
  have hloop := forLoop_eq_foldl
    (fun (solver : TreeNode T) ii => (problem.exploreSolutions fuel 1 [] ⟨ii, []⟩).map
      fun result => if result.1 then solver.add result.2 else solver)
    (fun node k => node.append (problem.branch bound [] k)) (fun _ => True) (s := solver.clear)
    (fun k hk => not_stop_of_lt_extent hk) (stop_extent (finite [] isOpen_nil)) hextent trivial
    (fun k hk node _ => ⟨hbody k hk node, trivial⟩)
  rw [TreeNode.foldl_append] at hloop
  rw [solutions_succ]
  refine (congrArg (Option.map fun solver => (solver.hasSuccessor, solver)) hloop).trans ?_
  cases solver
  rfl

theorem isOpen_bound (bounded : problem.Bounded) :
    ∃ bound, ∀ choice, problem.space.Open [] choice → choice.length < bound := by
  obtain ⟨bound, hbound⟩ := bounded
  refine ⟨bound + 1, fun choice hchoice => ?_⟩
  exact Nat.lt_succ_of_le (hbound choice (isOpen_append isOpen_nil hchoice))

theorem mem_leaves_iff_isSolution (finite : problem.Finite) {bound : Nat}
    (hbound : ∀ choice, problem.space.Open [] choice → choice.length < bound)
    (choice : List (Nat × T)) :
    choice ∈ problem.space.leaves bound [] ↔ problem.IsSolution choice := by
  rw [Space.mem_leaves_iff hbound, isSolution_iff_completes finite]

theorem pathsOf_solutions (problem : Problem T) (bound : Nat) : TreeNode.pathsOf (problem.solutions bound []) =
    (problem.space.leaves bound []).map (List.map Prod.snd) := by
  rw [TreeNode.pathsOf_eq_flatMap]
  exact Space.flatMap_forest (fun c => rfl) (fun c below hne => TreeNode.paths_of_ne_nil c.2 hne)
    bound []

theorem solutions_eq_nil_iff (finite : problem.Finite) {bound : Nat}
    (hbound : ∀ choice, problem.space.Open [] choice → choice.length < bound) :
    problem.solutions bound [] = [] ↔ ¬ ∃ choice, problem.IsSolution choice := by
  rw [← TreeNode.pathsOf_eq_nil_iff, pathsOf_solutions, List.map_eq_nil_iff,
    List.eq_nil_iff_forall_not_mem, not_exists]
  exact forall_congr' fun choice => not_congr (mem_leaves_iff_isSolution finite hbound choice)

/-- The search comes to an end, is sound and complete, and keeps no branch without a solution. -/
theorem apply_solves (problem : Problem T) (finite : problem.Finite) (bounded : problem.Bounded)
    (solver : TreeNode T) :
    ∃ found tree choices, (∃ enough, ∀ fuel ≥ enough,
      problem.apply fuel solver = some (found, tree)) ∧ problem.Solves found tree choices := by
  obtain ⟨bound, hbound⟩ := isOpen_bound bounded
  obtain ⟨enough, henough⟩ := eventually_atTop.mp (apply_eq finite hbound solver)
  have hpaths := problem.pathsOf_solutions bound
  have hmem := mem_leaves_iff_isSolution finite hbound
  refine ⟨_, _, problem.space.leaves bound [], ⟨enough, henough⟩, hpaths,
    Space.pairwise_leaves pairwise_enumeration bound [], hmem, ?_, ?_⟩
  · intro way hway
    obtain ⟨path, hpath, hprefix⟩ := TreeNode.exists_path_of_innerOf _ way hway
    rw [TreeNode.successors_mk, hpaths] at hpath
    obtain ⟨choice, hchoice, rfl⟩ := List.mem_map.mp hpath
    exact ⟨choice, (hmem choice).mp hchoice, hprefix⟩
  · rw [Bool.not_eq_true', ← Bool.not_eq_true, List.isEmpty_iff, solutions_eq_nil_iff finite hbound,
      not_not]

theorem apply_solves_addUp : ∃ found tree choices, (∃ enough, ∀ fuel ≥ enough,
    (AddUpIsANumber 10).apply fuel ⟨0, []⟩ = some (found, tree)) ∧
      (AddUpIsANumber 10).Solves found tree choices :=
  apply_solves (AddUpIsANumber 10) AddUpIsANumber.finite AddUpIsANumber.bounded ⟨0, []⟩

end Problem

end Coffee.Basis.Pattern.Backtracking
