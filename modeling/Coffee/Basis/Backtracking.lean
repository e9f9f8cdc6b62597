import Coffee.Library.Backtrack
import Mathlib.Algebra.Ring.Int.Defs

/-! # The backtracking solver

`Solver::apply` builds the tree of its solutions while it searches. A problem says how the
candidates of a depth are enumerated and which of them are rejected or accepted.
-/

namespace Coffee.Basis.Pattern.Backtracking

open Coffee.Library.Backtrack

universe u

variable {T : Type u}

/-- The chain of predecessors is in the place of the pointers to them. -/
inductive TreeNode (T : Type u) where
  | mk (m_value : T) (m_successors : List (TreeNode T))

namespace TreeNode

def getValue : TreeNode T → T
  | ⟨m_value, _⟩ => m_value

def add : TreeNode T → TreeNode T → TreeNode T
  | ⟨m_value, m_successors⟩, treeNode => ⟨m_value, m_successors ++ [treeNode]⟩

def clear : TreeNode T → TreeNode T
  | ⟨m_value, _⟩ => ⟨m_value, []⟩

def successors : TreeNode T → List (TreeNode T)
  | ⟨_, m_successors⟩ => m_successors

def hasSuccessor (treeNode : TreeNode T) : Bool := !treeNode.successors.isEmpty

mutual

/-- The values from the node down to each leaf below it. -/
def paths : TreeNode T → List (List T)
  | ⟨m_value, []⟩ => [[m_value]]
  | ⟨m_value, successor :: m_successors⟩ =>
    (paths successor ++ pathsOf m_successors).map (m_value :: ·)

def pathsOf : List (TreeNode T) → List (List T)
  | [] => []
  | treeNode :: m_successors => paths treeNode ++ pathsOf m_successors

end

mutual

/-- The values from the node down to each node below it, itself included, that has a successor. -/
def inner : TreeNode T → List (List T)
  | ⟨_, []⟩ => []
  | ⟨m_value, successor :: m_successors⟩ =>
    [m_value] :: (inner successor ++ innerOf m_successors).map (m_value :: ·)

def innerOf : List (TreeNode T) → List (List T)
  | [] => []
  | treeNode :: m_successors => inner treeNode ++ innerOf m_successors

end

def append (treeNode : TreeNode T) (below : List (TreeNode T)) : TreeNode T :=
  ⟨treeNode.getValue, treeNode.successors ++ below⟩

@[simp] theorem getValue_mk (m_value : T) (m_successors : List (TreeNode T)) :
    (mk m_value m_successors).getValue = m_value := rfl

@[simp] theorem successors_mk (m_value : T) (m_successors : List (TreeNode T)) :
    (mk m_value m_successors).successors = m_successors := rfl

@[simp] theorem getValue_append (treeNode : TreeNode T) (below : List (TreeNode T)) :
    (treeNode.append below).getValue = treeNode.getValue := rfl

@[simp] theorem append_nil (treeNode : TreeNode T) : treeNode.append [] = treeNode := by
  cases treeNode
  simp [append]

@[simp] theorem append_append (treeNode : TreeNode T) (below more : List (TreeNode T)) :
    (treeNode.append below).append more = treeNode.append (below ++ more) := by
  simp [append]

theorem add_eq_append (treeNode below : TreeNode T) :
    treeNode.add below = treeNode.append [below] := by
  cases treeNode
  rfl

theorem foldl_append (f : Nat → List (TreeNode T)) (positions : List Nat) (node : TreeNode T) :
    positions.foldl (fun node k => node.append (f k)) node =
      node.append (positions.flatMap f) := by
  induction positions generalizing node with
  | nil => simp
  | cons k positions ih => rw [List.foldl_cons, ih, List.flatMap_cons, append_append]

theorem pathsOf_eq_flatMap (below : List (TreeNode T)) : pathsOf below = below.flatMap paths := by
  induction below with
  | nil => rfl
  | cons treeNode below ih => rw [pathsOf, ih, List.flatMap_cons]

theorem paths_of_ne_nil (m_value : T) {below : List (TreeNode T)} (h : below ≠ []) :
    paths ⟨m_value, below⟩ = (below.flatMap paths).map (m_value :: ·) := by
  cases below with
  | nil => exact absurd rfl h
  | cons treeNode below => rw [paths, pathsOf_eq_flatMap, List.flatMap_cons]

theorem paths_ne_nil : ∀ treeNode : TreeNode T, paths treeNode ≠ []
  | ⟨_, []⟩ => by simp [paths]
  | ⟨_, successor :: _⟩ => by simp [paths, paths_ne_nil successor]

theorem pathsOf_eq_nil_iff {below : List (TreeNode T)} : pathsOf below = [] ↔ below = [] := by
  cases below with
  | nil => simp [pathsOf]
  | cons treeNode below => simp [pathsOf, paths_ne_nil treeNode]

mutual

/-- Every inner node lies on the way to a leaf. -/
theorem exists_path_of_inner : ∀ (treeNode : TreeNode T) (way : List T), way ∈ inner treeNode →
    ∃ path ∈ paths treeNode, way <+: path
  | ⟨_, []⟩, _, h => by simp [inner] at h
  | ⟨m_value, successor :: m_successors⟩, way, h => by
    rw [inner, List.mem_cons, List.mem_map] at h
    rw [paths]
    rcases h with rfl | ⟨way, hway, rfl⟩
    · obtain ⟨path, hpath⟩ := List.exists_mem_of_ne_nil _ (paths_ne_nil successor)
      exact ⟨m_value :: path, List.mem_map_of_mem (List.mem_append_left _ hpath),
        List.prefix_append [m_value] path⟩
    · obtain ⟨path, hpath, hprefix⟩ : ∃ path ∈ paths successor ++ pathsOf m_successors,
          way <+: path := by
        rcases List.mem_append.mp hway with hway | hway
        · obtain ⟨path, hpath, hprefix⟩ := exists_path_of_inner successor way hway
          exact ⟨path, List.mem_append_left _ hpath, hprefix⟩
        · obtain ⟨path, hpath, hprefix⟩ := exists_path_of_innerOf m_successors way hway
          exact ⟨path, List.mem_append_right _ hpath, hprefix⟩
      exact ⟨m_value :: path, List.mem_map_of_mem hpath,
        (List.prefix_cons_inj m_value).mpr hprefix⟩

theorem exists_path_of_innerOf : ∀ (below : List (TreeNode T)) (way : List T),
    way ∈ innerOf below → ∃ path ∈ pathsOf below, way <+: path
  | [], _, h => by simp [innerOf] at h
  | treeNode :: below, way, h => by
    rw [innerOf, List.mem_append] at h
    rw [pathsOf]
    rcases h with h | h
    · obtain ⟨path, hpath, hprefix⟩ := exists_path_of_inner treeNode way h
      exact ⟨path, List.mem_append_left _ hpath, hprefix⟩
    · obtain ⟨path, hpath, hprefix⟩ := exists_path_of_innerOf below way h
      exact ⟨path, List.mem_append_right _ hpath, hprefix⟩

end

end TreeNode

/-- What a user of the solver defines. `reject` and `accept` are given the values from the node on
test up to the first one. -/
structure Problem (T : Type u) where
  getStartingPoint : T
  first : Nat → T → T
  stop : Nat → T → Bool
  next : Nat → T → T
  reject : List T → T → Bool
  accept : List T → T → Bool

namespace Problem

variable (problem : Problem T)

mutual

/-- `fuel` bounds the rounds of each loop and the depth of the calls. -/
def exploreSolutions : Nat → Nat → List T → TreeNode T → Option (Bool × TreeNode T)
  | 0, _, _, _ => none
  | fuel + 1, depth, predeccessors, onTestSolution =>
    forLoop (problem.stop depth) (problem.next depth)
      (fun (hasSolution, onTestSolution) ii =>
        (backtracking fuel depth predeccessors onTestSolution ii).map
          fun (found, onTestSolution) => (hasSolution || found, onTestSolution))
      fuel (problem.first depth onTestSolution.getValue) (false, onTestSolution)

def backtracking : Nat → Nat → List T → TreeNode T → T → Option (Bool × TreeNode T)
  | 0, _, _, _, _ => none
  | fuel + 1, depth, predeccessors, onTestSolution, candidate =>
    let chain := onTestSolution.getValue :: predeccessors
    if problem.reject chain candidate then some (false, onTestSolution)
    else if problem.accept chain candidate then
      some (true, onTestSolution.add ⟨candidate, []⟩)
    else (exploreSolutions fuel (depth + 1) chain ⟨candidate, []⟩).map
      fun (found, solution) =>
        if found then (true, onTestSolution.add solution) else (false, onTestSolution)

end

/-- The solver is the root of the tree, and its own value is not part of a solution. -/
def apply (fuel : Nat) (solver : TreeNode T) : Option (Bool × TreeNode T) :=
  (forLoop (problem.stop 0) (problem.next 0)
    (fun solver ii => (problem.exploreSolutions fuel 1 [] ⟨ii, []⟩).map
      fun (found, solution) => if found then solver.add solution else solver)
    fuel (problem.first 0 problem.getStartingPoint) solver.clear).map
    fun solver => (solver.hasSuccessor, solver)

/-! ## What a solution is

A choice lists, depth by depth, a position in the enumeration and the value at it.
-/

def chain (before : List (Nat × T)) : List T := (before.map Prod.snd).reverse

/-- The value that the enumeration behind `before` starts from. -/
def predeccessor (before : List (Nat × T)) : T := (chain before).headD problem.getStartingPoint

theorem chain_concat (before : List (Nat × T)) (c : Nat × T) :
    chain (before ++ [c]) = c.2 :: chain before := by simp [chain]

theorem predeccessor_concat (before : List (Nat × T)) (c : Nat × T) :
    problem.predeccessor (before ++ [c]) = c.2 := by simp [predeccessor, chain_concat]

def candidateAt (before : List (Nat × T)) (position : Nat) : T :=
  (problem.next before.length)^[position]
    (problem.first before.length (problem.predeccessor before))

/-- The enumeration behind `before` comes to the position before it stops, and has the value
there. -/
def Produces (before : List (Nat × T)) (c : Nat × T) : Prop :=
  c.2 = problem.candidateAt before c.1 ∧
    ∀ position ≤ c.1, problem.stop before.length (problem.candidateAt before position) = false

structure IsSolution (choice : List (Nat × T)) : Prop where
  two_le : 2 ≤ choice.length
  produced : ∀ before c after, choice = before ++ c :: after → problem.Produces before c
  not_rejected : ∀ before c after, choice = before ++ c :: after → before ≠ [] →
    problem.reject (chain before) c.2 = false
  accepted_iff : ∀ before c after, choice = before ++ c :: after → before ≠ [] →
    (problem.accept (chain before) c.2 = true ↔ after = [])

/-- A choice that the search extends. -/
structure IsOpen (choice : List (Nat × T)) : Prop where
  produced : ∀ before c after, choice = before ++ c :: after → problem.Produces before c
  not_rejected : ∀ before c after, choice = before ++ c :: after → before ≠ [] →
    problem.reject (chain before) c.2 = false
  not_accepted : ∀ before c after, choice = before ++ c :: after → before ≠ [] →
    problem.accept (chain before) c.2 = false

/-- Every enumeration that the search begins comes to its end. -/
def Finite : Prop :=
  ∀ before, problem.IsOpen before →
    ∃ n, problem.stop before.length (problem.candidateAt before n) = true

def Bounded : Prop := ∃ bound, ∀ choice, problem.IsOpen choice → choice.length ≤ bound

/-- What the tree shows is what the problem asks for, as `choices` lists it. -/
structure Solves (found : Bool) (tree : TreeNode T) (choices : List (List (Nat × T))) : Prop where
  paths_eq : TreeNode.pathsOf tree.successors = choices.map (List.map Prod.snd)
  ordered : choices.Pairwise (List.Lex fun c d => c.1 < d.1)
  mem_iff : ∀ choice, choice ∈ choices ↔ problem.IsSolution choice
  inner_on_path : ∀ way ∈ TreeNode.innerOf tree.successors,
    ∃ choice, problem.IsSolution choice ∧ way <+: choice.map Prod.snd
  found_iff : found = true ↔ ∃ choice, problem.IsSolution choice

end Problem

/-! ## Adding up -/

/-- The decompositions of a number into smaller ones. -/
def AddUpIsANumber (m_valueUnderStudy : Int) : Problem Int where
  getStartingPoint := m_valueUnderStudy
  first _ value := if 0 < value then value - 1 else 0
  stop _ value := value ≤ 0
  next _ value := value - 1
  reject solution candidate := solution.sum + candidate > m_valueUnderStudy
  accept solution candidate := solution.sum + candidate = m_valueUnderStudy

namespace AddUpIsANumber

open Problem

variable {m_valueUnderStudy : Int}

theorem candidateAt_eq (before : List (Nat × Int)) (position : Nat) :
    (AddUpIsANumber m_valueUnderStudy).candidateAt before position =
      (AddUpIsANumber m_valueUnderStudy).first before.length
        ((AddUpIsANumber m_valueUnderStudy).predeccessor before) - position := by
  have hnext : ∀ value : Int, (fun value : Int => value - 1)^[position] value =
      value - position := by
    induction position with
    | zero => simp
    | succ position ih =>
      intro value
      rw [Function.iterate_succ_apply, ih]
      push_cast
      omega
  exact hnext _

theorem finite : (AddUpIsANumber m_valueUnderStudy).Finite := by
  intro before _
  refine ⟨((AddUpIsANumber m_valueUnderStudy).first before.length
    ((AddUpIsANumber m_valueUnderStudy).predeccessor before)).toNat, ?_⟩
  rw [candidateAt_eq]
  exact decide_eq_true (Int.sub_nonpos_of_le (Int.self_le_toNat _))

/-- Every candidate is positive and smaller than its predecessor. -/
theorem lt_predeccessor {before : List (Nat × Int)} {c : Nat × Int}
    (h : (AddUpIsANumber m_valueUnderStudy).Produces before c) :
    0 < c.2 ∧ c.2 < (AddUpIsANumber m_valueUnderStudy).predeccessor before := by
  obtain ⟨hvalue, hrun⟩ := h
  have hstop := hrun c.1 (Nat.le_refl _)
  rw [← hvalue] at hstop
  have hpos : 0 < c.2 := Int.not_le.mp (of_decide_eq_false hstop)
  refine ⟨hpos, ?_⟩
  rw [candidateAt_eq] at hvalue
  change c.2 = (if 0 < (AddUpIsANumber m_valueUnderStudy).predeccessor before then _ else _) -
    (c.1 : Int) at hvalue
  split at hvalue <;> omega

theorem length_le (choice : List (Nat × Int))
    (h : ∀ before c after, choice = before ++ c :: after →
      (AddUpIsANumber m_valueUnderStudy).Produces before c) :
    (AddUpIsANumber m_valueUnderStudy).predeccessor choice + choice.length ≤
      m_valueUnderStudy := by
  induction choice using List.reverseRecOn with
  | nil => simp [predeccessor, chain, AddUpIsANumber]
  | append_singleton before c ih =>
    have hbefore := ih fun mid d after hmid => h mid d (after ++ [c]) (by simp [hmid])
    have hc := (lt_predeccessor (h before c [] rfl)).2
    rw [predeccessor_concat, List.length_append, List.length_singleton]
    push_cast
    omega

theorem bounded : (AddUpIsANumber m_valueUnderStudy).Bounded := by
  refine ⟨m_valueUnderStudy.toNat + 1, fun choice hopen => ?_⟩
  rcases List.eq_nil_or_concat' choice with rfl | ⟨before, c, rfl⟩
  · simp
  · have hpos := (lt_predeccessor (hopen.produced before c [] rfl)).1
    have hlength := length_le _ hopen.produced
    rw [predeccessor_concat] at hlength
    omega

end AddUpIsANumber

end Coffee.Basis.Pattern.Backtracking
