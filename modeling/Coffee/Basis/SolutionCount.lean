import Coffee.Basis.SolverSearch
import Coffee.Library.FixedWidth
import Mathlib.Data.Set.Card

/-! # Counting the solutions

`countSolutions` counts the leaves of a tree in an `int`. A solver without a solution is a leaf of
its own.
-/

namespace Coffee.Basis.Pattern.Backtracking

open Coffee.Library Coffee.Library.Backtrack Filter

universe u v

variable {T : Type u} {S : Type v}

namespace TreeNode

/-- `result += count`, where the result is an `int` and the count a `size_t`. -/
def addCount (result count : Int) : Int :=
  IntegerType.int.wrap (IntegerType.sizeT.wrap (IntegerType.sizeT.wrap result + count))

mutual

def countSolutions : TreeNode T → Int
  | ⟨_, []⟩ => IntegerType.sizeT.wrap 1
  | ⟨_, successor :: m_successors⟩ =>
    IntegerType.sizeT.wrap (countOf (addCount 0 (countSolutions successor)) m_successors)

/-- The loop of `countSolutions` behind its first rounds. -/
def countOf (result : Int) : List (TreeNode T) → Int
  | [] => result
  | successor :: m_successors => countOf (addCount result (countSolutions successor)) m_successors

end

mutual

def map (f : T → S) : TreeNode T → TreeNode S
  | ⟨m_value, m_successors⟩ => ⟨f m_value, mapOf f m_successors⟩

def mapOf (f : T → S) : List (TreeNode T) → List (TreeNode S)
  | [] => []
  | treeNode :: m_successors => map f treeNode :: mapOf f m_successors

end

mutual

/-- The node and those below it, each with the values on the way to it. -/
def nodes : TreeNode T → List (List T × TreeNode T)
  | ⟨m_value, m_successors⟩ =>
    ([m_value], ⟨m_value, m_successors⟩) ::
      (nodesOf m_successors).map fun below => (m_value :: below.1, below.2)

def nodesOf : List (TreeNode T) → List (List T × TreeNode T)
  | [] => []
  | treeNode :: m_successors => nodes treeNode ++ nodesOf m_successors

end

theorem addCount_eq (result number : Int) :
    addCount (IntegerType.int.wrap result)
        (IntegerType.sizeT.wrap (IntegerType.int.wrap number)) =
      IntegerType.int.wrap (result + number) := by
  rw [addCount, IntegerType.wrap_eq_wrap_iff]
  have hint : ∀ v, (2 : Int) ^ 32 ∣ IntegerType.int.wrap v - v := IntegerType.dvd_wrap_sub
  have hsize : ∀ v, (2 : Int) ^ 64 ∣ IntegerType.sizeT.wrap v - v := IntegerType.dvd_wrap_sub
  have hresult := hint result
  have hnumber := hint number
  have hresult' := hsize (IntegerType.int.wrap result)
  have hnumber' := hsize (IntegerType.int.wrap number)
  have hsum := hsize (IntegerType.sizeT.wrap (IntegerType.int.wrap result) +
    IntegerType.sizeT.wrap (IntegerType.int.wrap number))
  change (2 : Int) ^ 32 ∣ _
  omega

mutual

/-- The count is that of the leaves, in an `int`. -/
theorem countSolutions_eq : ∀ treeNode : TreeNode T, countSolutions treeNode =
    IntegerType.sizeT.wrap (IntegerType.int.wrap (paths treeNode).length)
  | ⟨_, []⟩ => by
    have hone : IntegerType.int.wrap 1 = 1 := by decide
    rw [countSolutions, paths, List.length_singleton, Nat.cast_one, hone]
  | ⟨m_value, successor :: m_successors⟩ => by
    have hzero : IntegerType.int.wrap 0 = 0 := by decide
    rw [countSolutions, paths, countSolutions_eq successor, ← hzero, addCount_eq, countOf_eq,
      List.length_map, List.length_append]
    simp

theorem countOf_eq : ∀ (below : List (TreeNode T)) (result : Int),
    countOf (IntegerType.int.wrap result) below =
      IntegerType.int.wrap (result + (pathsOf below).length)
  | [], result => by simp [countOf, pathsOf]
  | successor :: m_successors, result => by
    rw [countOf, pathsOf, countSolutions_eq successor, addCount_eq, countOf_eq,
      List.length_append]
    congr 1
    push_cast
    omega

end

/-- A number that survives the `int`. -/
def Countable (number : Nat) : Prop :=
  number < 2 ^ 31 ∨ 2 ^ 64 - 2 ^ 31 ≤ number ∧ number < 2 ^ 64

theorem countSolutions_eq_iff {treeNode : TreeNode T} {number : Nat}
    (hnumber : (paths treeNode).length = number) :
    countSolutions treeNode = number ↔ Countable number := by
  rw [countSolutions_eq, hnumber, IntegerType.sizeT_wrap, IntegerType.int_wrap, Countable]
  omega

theorem mapOf_eq_map (f : T → S) (below : List (TreeNode T)) : mapOf f below = below.map (map f) := by
  induction below with
  | nil => rfl
  | cons treeNode below ih => rw [mapOf, ih, List.map_cons]

theorem nodesOf_eq_flatMap (below : List (TreeNode T)) : nodesOf below = below.flatMap nodes := by
  induction below with
  | nil => rfl
  | cons treeNode below ih => rw [nodesOf, ih, List.flatMap_cons]

mutual

theorem length_paths_map (f : T → S) : ∀ treeNode : TreeNode T,
    (paths (map f treeNode)).length = (paths treeNode).length
  | ⟨_, []⟩ => by simp [map, mapOf, paths]
  | ⟨_, successor :: m_successors⟩ => by
    simp [map, mapOf, paths, length_paths_map f successor, length_pathsOf_mapOf f m_successors]

theorem length_pathsOf_mapOf (f : T → S) : ∀ below : List (TreeNode T),
    (pathsOf (mapOf f below)).length = (pathsOf below).length
  | [] => rfl
  | successor :: m_successors => by
    simp [mapOf, pathsOf, length_paths_map f successor, length_pathsOf_mapOf f m_successors]

end

theorem mem_nodes_iff {m_value : T} {below : List (TreeNode T)} {way : List T}
    {treeNode : TreeNode T} : (way, treeNode) ∈ nodes ⟨m_value, below⟩ ↔
      way = [m_value] ∧ treeNode = ⟨m_value, below⟩ ∨
        ∃ way', way = m_value :: way' ∧ (way', treeNode) ∈ nodesOf below := by
  rw [nodes, List.mem_cons, List.mem_map, Prod.mk.injEq]
  refine or_congr_right ?_
  constructor
  · rintro ⟨⟨way', node⟩, hmem, heq⟩
    obtain ⟨rfl, rfl⟩ := Prod.mk.inj heq
    exact ⟨way', rfl, hmem⟩
  · rintro ⟨way', rfl, hmem⟩
    exact ⟨(way', treeNode), hmem, rfl⟩

theorem mem_paths {m_value : T} {below : List (TreeNode T)} {path : List T}
    (h : path ∈ paths ⟨m_value, below⟩) :
    ∃ rest, path = m_value :: rest ∧ (rest = [] ∨ rest ∈ pathsOf below) := by
  cases below with
  | nil =>
    rw [paths, List.mem_singleton] at h
    exact ⟨[], h, Or.inl rfl⟩
  | cons successor m_successors =>
    rw [paths, List.mem_map] at h
    obtain ⟨rest, hrest, rfl⟩ := h
    exact ⟨rest, rfl, Or.inr hrest⟩

mutual

theorem exists_node_of_paths : ∀ (treeNode : TreeNode T) (path way : List T),
    path ∈ paths treeNode → way <+: path → way ≠ [] → ∃ node, (way, node) ∈ nodes treeNode
  | ⟨m_value, m_successors⟩, path, way, hpath, hway, hne => by
    obtain ⟨rest, rfl, hrest⟩ := mem_paths hpath
    obtain hnil | ⟨way', rfl, hway'⟩ := List.prefix_cons_iff.mp hway
    · exact absurd hnil hne
    · rcases List.eq_nil_or_concat way' with rfl | ⟨_, _, hconcat⟩
      · exact ⟨⟨m_value, m_successors⟩, mem_nodes_iff.mpr (Or.inl ⟨rfl, rfl⟩)⟩
      · have hne' : way' ≠ [] := by simp [hconcat]
        have hmem : rest ∈ pathsOf m_successors := by
          rcases hrest with rfl | hmem
          · exact absurd (List.prefix_nil.mp hway') hne'
          · exact hmem
        obtain ⟨node, hnode⟩ := exists_node_of_pathsOf m_successors rest way' hmem hway' hne'
        exact ⟨node, mem_nodes_iff.mpr (Or.inr ⟨way', rfl, hnode⟩)⟩

theorem exists_node_of_pathsOf : ∀ (below : List (TreeNode T)) (path way : List T),
    path ∈ pathsOf below → way <+: path → way ≠ [] → ∃ node, (way, node) ∈ nodesOf below
  | [], path, way, hpath, hway, hne => by simp [pathsOf] at hpath
  | treeNode :: below, path, way, hpath, hway, hne => by
    rw [pathsOf, List.mem_append] at hpath
    rw [nodesOf]
    rcases hpath with hpath | hpath
    · obtain ⟨node, hnode⟩ := exists_node_of_paths treeNode path way hpath hway hne
      exact ⟨node, List.mem_append_left _ hnode⟩
    · obtain ⟨node, hnode⟩ := exists_node_of_pathsOf below path way hpath hway hne
      exact ⟨node, List.mem_append_right _ hnode⟩

end

end TreeNode

/-! ## The tree of a search -/

section Space

variable {space : Space T}

theorem flatMap_unique {α β : Type*} {l : List α} {f : α → List β} {a : α} (hnodup : l.Nodup)
    (ha : a ∈ l) (hf : ∀ b, b ≠ a → f b = []) : l.flatMap f = f a := by
  induction l with
  | nil => cases ha
  | cons b l ih =>
    obtain ⟨hb, hl⟩ := List.nodup_cons.mp hnodup
    rw [List.flatMap_cons]
    rcases List.mem_cons.mp ha with rfl | ha
    · have hrest : l.flatMap f = [] :=
        List.flatMap_eq_nil_iff.mpr fun c hc => hf c fun hca => hb (hca ▸ hc)
      rw [hrest, List.append_nil]
    · have hba : b ≠ a := fun hba => hb (hba ▸ ha)
      rw [hf b hba, List.nil_append, ih hl ha]

theorem mem_forest_succ {bound : Nat} {before : List T} {treeNode : TreeNode T}
    (h : treeNode ∈ space.forest TreeNode.mk (bound + 1) before) :
    ∃ a ∈ space.enumeration before, space.rejected before a = false ∧
      (space.accepted before a = true ∧ treeNode = ⟨a, []⟩ ∨
        space.accepted before a = false ∧
          treeNode = ⟨a, space.forest TreeNode.mk bound (before ++ [a])⟩ ∧
            space.forest TreeNode.mk bound (before ++ [a]) ≠ []) := by
  rw [Space.forest, List.mem_flatMap] at h
  obtain ⟨a, ha, h⟩ := h
  refine ⟨a, ha, ?_⟩
  split at h
  · cases h
  · next hrejected =>
    refine ⟨Bool.not_eq_true _ ▸ hrejected, ?_⟩
    split at h
    · next haccepted => exact Or.inl ⟨haccepted, List.mem_singleton.mp h⟩
    · next haccepted =>
      split at h
      · cases h
      · next hempty =>
        refine Or.inr ⟨Bool.not_eq_true _ ▸ haccepted, List.mem_singleton.mp h, ?_⟩
        rwa [List.isEmpty_iff] at hempty

theorem pathsOf_forest (bound : Nat) (before : List T) :
    TreeNode.pathsOf (space.forest TreeNode.mk bound before) = space.leaves bound before := by
  have hleaf : ∀ a : T, TreeNode.paths ⟨a, []⟩ = [[id a]] := fun _ => rfl
  have hnode : ∀ (a : T) (below : List (TreeNode T)), below ≠ [] →
      TreeNode.paths ⟨a, below⟩ = (below.flatMap TreeNode.paths).map (id a :: ·) :=
    fun a _ hne => TreeNode.paths_of_ne_nil a hne
  rw [TreeNode.pathsOf_eq_flatMap, Space.flatMap_forest hleaf hnode, List.map_id_fun]
  exact List.map_id _

open Classical in
theorem filter_leaves_succ (hnodup : ∀ before, (space.enumeration before).Nodup) (bound : Nat)
    {before : List T} {a : T} (ha : a ∈ space.enumeration before)
    (hrejected : space.rejected before a = false) (way : List T) :
    (space.leaves (bound + 1) before).filter (fun rest => a :: way <+: rest) =
      (if space.accepted before a then [[a]]
        else (space.leaves bound (before ++ [a])).map (a :: ·)).filter
          fun rest => a :: way <+: rest := by
  rw [Space.leaves, List.filter_flatMap, flatMap_unique (hnodup before) ha]
  · rw [hrejected, if_neg Bool.false_ne_true]
  · intro b hb
    refine List.filter_eq_nil_iff.mpr fun rest hrest => ?_
    obtain ⟨tail, rfl⟩ := Space.head_of_mem_branch hrest
    rw [decide_eq_true_eq, List.cons_prefix_cons]
    exact fun hprefix => hb hprefix.1.symm

open Classical in
/-- As many leaves are below a node as completions take the way to it. -/
theorem length_paths_of_mem_nodesOf (hnodup : ∀ before, (space.enumeration before).Nodup)
    {bound : Nat} {before way : List T} {treeNode : TreeNode T}
    (h : (way, treeNode) ∈ TreeNode.nodesOf (space.forest TreeNode.mk bound before)) :
    (TreeNode.paths treeNode).length =
      ((space.leaves bound before).filter fun rest => way <+: rest).length := by
  induction bound generalizing before way with
  | zero => cases h
  | succ bound ih =>
    rw [TreeNode.nodesOf_eq_flatMap, List.mem_flatMap] at h
    obtain ⟨top, htop, h⟩ := h
    obtain ⟨a, ha, hrejected, hcase⟩ := mem_forest_succ htop
    rcases hcase with ⟨haccepted, rfl⟩ | ⟨haccepted, rfl, hne⟩
    · rcases TreeNode.mem_nodes_iff.mp h with ⟨rfl, rfl⟩ | ⟨way', -, hmem⟩
      · rw [filter_leaves_succ hnodup bound ha hrejected, if_pos haccepted]
        simp [TreeNode.paths]
      · cases hmem
    · have hleaves : TreeNode.pathsOf (space.forest TreeNode.mk bound (before ++ [a])) =
          space.leaves bound (before ++ [a]) := pathsOf_forest bound (before ++ [a])
      rcases TreeNode.mem_nodes_iff.mp h with ⟨rfl, rfl⟩ | ⟨way', rfl, hmem⟩
      · rw [filter_leaves_succ hnodup bound ha hrejected, haccepted,
          TreeNode.paths_of_ne_nil a hne, ← TreeNode.pathsOf_eq_flatMap, hleaves]
        simp [List.filter_map, Function.comp_def]
      · rw [filter_leaves_succ hnodup bound ha hrejected, haccepted, ih hmem]
        simp [List.filter_map, Function.comp_def]

theorem nodup_leaves {r : T → T → Prop} (hirrefl : ∀ a, ¬ r a a)
    (h : ∀ before, (space.enumeration before).Pairwise r) (bound : Nat) (before : List T) :
    (space.leaves bound before).Nodup := by
  refine (Space.pairwise_leaves h bound before).imp fun hless heq => ?_
  subst heq
  exact List.lex_irrefl hirrefl _ hless

theorem mapOf_forest (f : T → S) (bound : Nat) (before : List T) :
    TreeNode.mapOf f (space.forest TreeNode.mk bound before) =
      space.forest (fun a below => ⟨f a, below⟩) bound before := by
  rw [TreeNode.mapOf_eq_map]
  induction bound generalizing before with
  | zero => rfl
  | succ bound ih =>
    rw [Space.forest, Space.forest, List.map_flatMap]
    congr 1
    funext a
    have hbelow := ih (before ++ [a])
    rw [← hbelow, List.isEmpty_map]
    split
    · rfl
    · split
      · rfl
      · split
        · rfl
        · rw [List.map_singleton, TreeNode.map, TreeNode.mapOf_eq_map]

end Space

namespace Problem

variable {problem : Problem T}

/-- The number of solutions that begin with a way. -/
noncomputable def through (problem : Problem T) (way : List (Nat × T)) : Nat :=
  {choice | problem.IsSolution choice ∧ way <+: choice}.ncard

/-- The successors of the tree are labelled with the choices that lead to them. -/
structure Labels (problem : Problem T) (tree : TreeNode T)
    (labelled : List (TreeNode (Nat × T))) : Prop where
  successors : tree.successors = TreeNode.mapOf Prod.snd labelled
  nodup : (TreeNode.pathsOf labelled).Nodup
  mem_iff : ∀ choice, choice ∈ TreeNode.pathsOf labelled ↔ problem.IsSolution choice

/-- The tree and each of its nodes count the solutions that they lead to. -/
structure Counts (problem : Problem T) (found : Bool) (tree : TreeNode T)
    (labelled : List (TreeNode (Nat × T))) : Prop where
  root : tree.countSolutions = if found then problem.through [] else 0
  node : ∀ way treeNode, (way, treeNode) ∈ TreeNode.nodesOf labelled →
    (treeNode.map Prod.snd).countSolutions = problem.through way

theorem nodup_enumeration (before : List (Nat × T)) :
    (problem.space.enumeration before).Nodup := by
  refine (pairwise_enumeration before).imp fun hless heq => ?_
  exact absurd (congrArg Prod.fst heq) (Nat.ne_of_lt hless)

open Classical in
theorem through_eq (finite : problem.Finite) {bound : Nat}
    (hbound : ∀ choice, problem.space.Open [] choice → choice.length < bound)
    (way : List (Nat × T)) : problem.through way =
      ((problem.space.leaves bound []).filter fun choice => way <+: choice).length := by
  have hnodup : (problem.space.leaves bound []).Nodup :=
    nodup_leaves (fun c => Nat.lt_irrefl c.1) pairwise_enumeration bound []
  have hset : {choice | problem.IsSolution choice ∧ way <+: choice} =
      (((problem.space.leaves bound []).filter fun choice => way <+: choice).toFinset :
        Set (List (Nat × T))) := by
    ext choice
    simp [mem_leaves_iff_isSolution finite hbound]
  rw [through, hset, Set.ncard_coe_finset, List.toFinset_card_of_nodup (hnodup.filter _)]

theorem count_node_iff (finite : problem.Finite) {bound : Nat}
    (hbound : ∀ choice, problem.space.Open [] choice → choice.length < bound)
    {way : List (Nat × T)} {treeNode : TreeNode (Nat × T)}
    (h : (way, treeNode) ∈ TreeNode.nodesOf (problem.space.forest TreeNode.mk bound [])) :
    (treeNode.map Prod.snd).countSolutions = problem.through way ↔
      TreeNode.Countable (problem.through way) := by
  refine TreeNode.countSolutions_eq_iff ?_
  rw [TreeNode.length_paths_map, length_paths_of_mem_nodesOf nodup_enumeration h,
    through_eq finite hbound]
  refine congrArg List.length (List.filter_congr fun choice _ => ?_)
  exact decide_eq_decide.mpr Iff.rfl

theorem through_nil (finite : problem.Finite) {bound : Nat}
    (hbound : ∀ choice, problem.space.Open [] choice → choice.length < bound) :
    problem.through [] = (problem.space.leaves bound []).length := by
  classical
  rw [through_eq finite hbound, List.filter_eq_self.mpr fun choice _ => by simp]

theorem count_root_iff (finite : problem.Finite) {bound : Nat}
    (hbound : ∀ choice, problem.space.Open [] choice → choice.length < bound) (m_value : T) :
    (TreeNode.mk m_value (problem.solutions bound [])).countSolutions =
        (if !(problem.solutions bound []).isEmpty then problem.through [] else 0) ↔
      (∃ choice, problem.IsSolution choice) ∧ TreeNode.Countable (problem.through []) := by
  by_cases hnil : problem.solutions bound [] = []
  · have hnone := (solutions_eq_nil_iff finite hbound).mp hnil
    refine iff_of_false ?_ fun h => hnone h.1
    have hone : IntegerType.sizeT.wrap 1 ≠ 0 := by decide
    rw [hnil, TreeNode.countSolutions]
    exact hone
  · have hsome := not_not.mp (mt (solutions_eq_nil_iff finite hbound).mpr hnil)
    have hlength : (TreeNode.paths ⟨m_value, problem.solutions bound []⟩).length =
        problem.through [] := by
      rw [TreeNode.paths_of_ne_nil m_value hnil, ← TreeNode.pathsOf_eq_flatMap, pathsOf_solutions,
        through_nil finite hbound, List.length_map, List.length_map]
    rw [and_iff_right hsome, List.isEmpty_eq_false_iff.mpr hnil]
    exact TreeNode.countSolutions_eq_iff hlength

/-- A way that no solution takes is not the way to a node, and counts none. -/
theorem exists_node_of_through (finite : problem.Finite) {bound : Nat}
    (hbound : ∀ choice, problem.space.Open [] choice → choice.length < bound)
    {way : List (Nat × T)} (hway : way ≠ []) (hthrough : problem.through way ≠ 0) :
    ∃ treeNode, (way, treeNode) ∈ TreeNode.nodesOf (problem.space.forest TreeNode.mk bound []) := by
  classical
  rw [through_eq finite hbound, ← Nat.pos_iff_ne_zero, List.length_pos_iff_exists_mem] at hthrough
  obtain ⟨choice, hchoice⟩ := hthrough
  obtain ⟨hmem, hprefix⟩ := List.mem_filter.mp hchoice
  rw [← pathsOf_forest] at hmem
  exact TreeNode.exists_node_of_pathsOf _ choice way hmem (of_decide_eq_true hprefix) hway

/-- The solver and every node of its tree count the solutions that they lead to just when there is
one, and no more of them than an `int` holds. -/
theorem countSolutions_iff (problem : Problem T) (finite : problem.Finite)
    (bounded : problem.Bounded) (solver : TreeNode T) :
    ∃ found tree labelled, (∃ enough, ∀ fuel ≥ enough,
      problem.apply fuel solver = some (found, tree)) ∧ problem.Labels tree labelled ∧
        (problem.Counts found tree labelled ↔ (∃ choice, problem.IsSolution choice) ∧
          ∀ way, TreeNode.Countable (problem.through way)) := by
  obtain ⟨bound, hbound⟩ := isOpen_bound bounded
  obtain ⟨enough, henough⟩ := eventually_atTop.mp (apply_eq finite hbound solver)
  have hlabels : problem.Labels ⟨solver.getValue, problem.solutions bound []⟩
      (problem.space.forest TreeNode.mk bound []) := by
    refine ⟨(mapOf_forest Prod.snd bound []).symm, ?_, fun choice => ?_⟩
    · rw [pathsOf_forest]
      exact nodup_leaves (fun c => Nat.lt_irrefl c.1) pairwise_enumeration bound []
    · rw [pathsOf_forest, mem_leaves_iff_isSolution finite hbound]
  refine ⟨_, _, _, ⟨enough, henough⟩, hlabels, ?_⟩
  have hroot := count_root_iff finite hbound solver.getValue
  constructor
  · rintro ⟨hcount, hnodes⟩
    obtain ⟨hsome, hall⟩ := hroot.mp hcount
    refine ⟨hsome, fun way => ?_⟩
    by_cases hway : way = []
    · exact hway ▸ hall
    · by_cases hthrough : problem.through way = 0
      · rw [hthrough]
        exact Or.inl (by decide)
      · obtain ⟨treeNode, hnode⟩ := exists_node_of_through finite hbound hway hthrough
        exact (count_node_iff finite hbound hnode).mp (hnodes way treeNode hnode)
  · rintro ⟨hsome, hcountable⟩
    exact ⟨hroot.mpr ⟨hsome, hcountable []⟩,
      fun way treeNode hnode => (count_node_iff finite hbound hnode).mpr (hcountable way)⟩

theorem countSolutions_iff_addUp : ∃ found tree labelled, (∃ enough, ∀ fuel ≥ enough,
    (AddUpIsANumber 10).apply fuel ⟨0, []⟩ = some (found, tree)) ∧
      (AddUpIsANumber 10).Labels tree labelled ∧
        ((AddUpIsANumber 10).Counts found tree labelled ↔
          (∃ choice, (AddUpIsANumber 10).IsSolution choice) ∧
            ∀ way, TreeNode.Countable ((AddUpIsANumber 10).through way)) :=
  countSolutions_iff (AddUpIsANumber 10) AddUpIsANumber.finite AddUpIsANumber.bounded ⟨0, []⟩

/-- Nothing adds up to two, and the solver counts itself as a solution. -/
theorem not_counts_none : ¬ ∀ (problem : Problem Int) (fuel : Nat) (solver tree : TreeNode Int),
    problem.Finite → problem.Bounded → problem.apply fuel solver = some (false, tree) →
      tree.countSolutions = 0 := by
  intro hall
  have hone : TreeNode.countSolutions (⟨0, []⟩ : TreeNode Int) = 1 := by decide
  have hzero := hall (AddUpIsANumber 2) 3 ⟨0, []⟩ ⟨0, []⟩ AddUpIsANumber.finite
    AddUpIsANumber.bounded rfl
  rw [hone] at hzero
  exact absurd hzero (by decide)

end Problem

end Coffee.Basis.Pattern.Backtracking
