import Coffee.Dbms.DataSet
import Coffee.Library.Runs

/-! # The storage of a set

`datatype::Set` keeps its columns in a hash map, and in `m_creationOrder` the iterators of them.
An iterator is the number of its node. A rehash leaves the nodes where they are, and the order in
which the map itself lists them is of no use here.
-/

namespace Coffee.Dbms.SetStorage

open Coffee.Library

variable {D : Type}

structure Node (D : Type) where
  number : Nat
  name : CString
  data : D
deriving DecidableEq, Repr

structure StoredSet (D : Type) where
  m_datas : List (Node D)
  m_creationOrder : List Nat
deriving DecidableEq, Repr

namespace StoredSet

def instantiate : StoredSet D := ⟨[], []⟩

variable (columns : Columns D) (set : StoredSet D)

/-- `none` is an iterator of a node that is no more. -/
def data (iterator : Nat) : Option D :=
  (set.m_datas.find? fun node => node.number = iterator).map Node.data

/-- `unordered_map::insert`, whose next node is `fresh`. -/
def emplace (datas : List (Node D)) (fresh : Nat) (name : CString) (data : D) :
    (Nat × Bool) × List (Node D) :=
  match datas.find? fun node => node.name = name with
  | some node => ((node.number, false), datas)
  | none => ((fresh, true), datas ++ [⟨fresh, name, data⟩])

def insert (fresh : Nat) (data : Option D) : Except InsertException Unit × StoredSet D :=
  match data with
  | none => (.error .notInitialized, set)
  | some data =>
    let name := columns.getName data
    if (set.m_datas.find? fun node => node.name = name).isSome then
      (.error (.alreadyDefined name), set)
    else
      let ((iterator, inserted), m_datas) := emplace set.m_datas fresh name data
      if inserted then (.ok (), ⟨m_datas, set.m_creationOrder ++ [iterator]⟩)
      else (.ok (), { set with m_datas })

def clear : StoredSet D := { set with m_datas := [] }

/-- The loop of the copy constructor and of `operator=` over the iterators of `other`. -/
def insertAll (other : StoredSet D) :
    List Nat → Nat → StoredSet D → Option (Except InsertException Unit × Nat × StoredSet D)
  | [], fresh, set => some (.ok (), fresh, set)
  | iterator :: rest, fresh, set => do
    let data ← other.data iterator
    match set.insert columns fresh (some data) with
    | (.error ex, set) => some (.error ex, fresh + 1, set)
    | (.ok (), set) => insertAll other rest (fresh + 1) set

end StoredSet

structure World (D : Type) where
  sets : Nat → StoredSet D
  fresh : Nat

inductive Call (D : Type) where
  | insert (i : Nat) (data : Option D)
  | clear (i : Nat)
  | copy (i j : Nat)
  | assign (i j : Nat)
deriving DecidableEq, Repr

namespace World

open StoredSet

/-- Every set behind its constructor. -/
def instantiate : World D := ⟨fun _ => .instantiate, 0⟩

variable (columns : Columns D) (world : World D)

/-- `none` is a call that dereferences an iterator of a node that is no more. -/
def step : Call D → Option (Except InsertException Unit × World D)
  | .insert i data =>
    let (result, set) := (world.sets i).insert columns world.fresh data
    some (result, ⟨Function.update world.sets i set, world.fresh + 1⟩)
  | .clear i => some (.ok (), { world with
      sets := Function.update world.sets i (world.sets i).clear })
  | .copy i j => do
    let other := world.sets j
    let (result, fresh, set) ←
      insertAll columns other other.m_creationOrder world.fresh .instantiate
    match result with
    | .error ex => some (.error ex, { world with fresh })
    | .ok () => some (.ok (), ⟨Function.update world.sets i set, fresh⟩)
  | .assign i j =>
    if i = j then some (.ok (), world)
    else do
      let other := world.sets j
      let (result, fresh, set) ←
        insertAll columns other other.m_creationOrder world.fresh .instantiate
      some (result, ⟨Function.update world.sets i set, fresh⟩)

end World

/-- What the calls mean for the sets: a set is the list of its columns, in the order of their
insertions. -/
def expected {columns : Columns D} (sets : Nat → DataSet columns) :
    Call D → Except InsertException Unit × (Nat → DataSet columns)
  | .insert i data =>
    match (sets i).insert data with
    | .error ex => (.error ex, sets)
    | .ok set => (.ok (), Function.update sets i set)
  | .clear i => (.ok (), Function.update sets i .empty)
  | .copy i j | .assign i j => (.ok (), Function.update sets i (sets j))

def noColumns (columns : Columns D) : Nat → DataSet columns := fun _ => .empty

/-- `m_creationOrder` lists the columns in the order of their insertions, and each entry of the map
once. -/
structure Enumerates {columns : Columns D} (set : StoredSet D) (datas : DataSet columns) : Prop where
  order : set.m_creationOrder.map set.data = datas.m_creationOrder.map some
  nodup : set.m_creationOrder.Nodup
  entries : ∀ node ∈ set.m_datas, node.number ∈ set.m_creationOrder

/-- A clear finds its set empty. -/
def Spared {columns : Columns D} (sets : Nat → DataSet columns) : Call D → Prop
  | .clear i => (sets i).m_creationOrder = []
  | _ => True

/-- The nodes in the order of their insertions, none of them with a number from `fresh` on. -/
structure Built {columns : Columns D} (fresh : Nat) (set : StoredSet D) (datas : DataSet columns) :
    Prop where
  iterators : set.m_creationOrder = set.m_datas.map Node.number
  datas : set.m_datas.map Node.data = datas.m_creationOrder
  nodup : (set.m_datas.map Node.number).Nodup
  node : ∀ node ∈ set.m_datas, node.name = columns.getName node.data ∧ node.number < fresh

section Built

variable {columns : Columns D} {fresh fresh' : Nat} {set : StoredSet D} {datas : DataSet columns}

theorem Built.data (h : Built fresh set datas) {node : Node D} (hnode : node ∈ set.m_datas) :
    set.data node.number = some node.data := by
  rw [StoredSet.data]
  cases hfind : set.m_datas.find? fun other => other.number = node.number with
  | none =>
    have hnone := List.find?_eq_none.mp hfind node hnode
    simp at hnone
  | some other =>
    have hnumber : other.number = node.number := by simpa using List.find?_some hfind
    have hother : other = node :=
      List.inj_on_of_nodup_map h.nodup (List.mem_of_find?_eq_some hfind) hnode hnumber
    rw [hother]
    rfl

theorem Built.enumerates (h : Built fresh set datas) : Enumerates set datas := by
  constructor
  · rw [h.iterators, ← h.datas, List.map_map, List.map_map]
    exact List.map_congr_left fun node hnode => h.data hnode
  · rw [h.iterators]
    exact h.nodup
  · intro node hnode
    rw [h.iterators]
    exact List.mem_map_of_mem hnode

theorem Built.mono (h : Built fresh set datas) (hle : fresh ≤ fresh') : Built fresh' set datas :=
  ⟨h.iterators, h.datas, h.nodup, fun node hnode =>
    ⟨(h.node node hnode).1, (h.node node hnode).2.trans_le hle⟩⟩

theorem built_empty (fresh : Nat) : Built fresh .instantiate (.empty : DataSet columns) :=
  ⟨rfl, rfl, List.nodup_nil, List.forall_mem_nil _⟩

theorem Built.find_isSome_iff (h : Built fresh set datas) (name : CString) :
    (set.m_datas.find? fun node => node.name = name).isSome ↔ name ∈ datas.names := by
  rw [List.find?_isSome, DataSet.names, ← h.datas, List.map_map, List.mem_map]
  constructor
  · rintro ⟨node, hnode, hname⟩
    exact ⟨node, hnode, (h.node node hnode).1.symm.trans (by simpa using hname)⟩
  · rintro ⟨node, hnode, hname⟩
    exact ⟨node, hnode, by simpa using (h.node node hnode).1.trans hname⟩

theorem Built.insert_error (h : Built fresh set datas) {data : Option D} {ex : InsertException}
    (hinsert : datas.insert data = .error ex) : set.insert columns fresh data = (.error ex, set) := by
  cases data with
  | none =>
    cases hinsert
    rfl
  | some data =>
    rw [DataSet.insert] at hinsert
    split at hinsert
    · rename_i hmem
      cases hinsert
      rw [StoredSet.insert, if_pos ((h.find_isSome_iff _).mpr hmem)]
    · cases hinsert

theorem Built.insert_ok (h : Built fresh set datas) {data : Option D} {datas' : DataSet columns}
    (hinsert : datas.insert data = .ok datas') :
    ∃ set', set.insert columns fresh data = (.ok (), set') ∧ Built (fresh + 1) set' datas' := by
  cases data with
  | none => cases hinsert
  | some data =>
    rw [DataSet.insert] at hinsert
    split at hinsert
    · cases hinsert
    · rename_i hmem
      cases hinsert
      have hsome := mt (h.find_isSome_iff (columns.getName data)).mp hmem
      have hnone := Option.not_isSome_iff_eq_none.mp hsome
      let node : Node D := ⟨fresh, columns.getName data, data⟩
      refine ⟨⟨set.m_datas ++ [node], set.m_creationOrder ++ [fresh]⟩, ?_, ?_⟩
      · rw [StoredSet.insert, if_neg hsome, StoredSet.emplace, hnone]
        rfl
      · constructor
        · rw [h.iterators, List.map_append]
          rfl
        · rw [List.map_append, h.datas]
          rfl
        · rw [List.map_append, List.nodup_append]
          refine ⟨h.nodup, List.nodup_singleton _, fun number hnumber number' hnumber' heq => ?_⟩
          obtain ⟨other, hother, rfl⟩ := List.mem_map.mp hnumber
          have hlt := (h.node other hother).2
          rw [List.map_singleton, List.mem_singleton] at hnumber'
          rw [heq, hnumber'] at hlt
          exact Nat.lt_irrefl fresh hlt
        · intro other hother
          rcases List.mem_append.mp hother with hother | hother
          · exact ⟨(h.node other hother).1, Nat.lt_succ_of_lt (h.node other hother).2⟩
          · rw [List.mem_singleton.mp hother]
            exact ⟨rfl, Nat.lt_succ_self fresh⟩

theorem insertAll_spec (other : StoredSet D) {iterators : List Nat} {rest : List D}
    (hiterators : iterators.map other.data = rest.map some) (h : Built fresh set datas)
    {datas' : DataSet columns}
    (hrest : rest.foldlM (fun set data => set.insert (some data)) datas = .ok datas') :
    ∃ fresh' set', fresh ≤ fresh' ∧ Built fresh' set' datas' ∧
      StoredSet.insertAll columns other iterators fresh set = some (.ok (), fresh', set') := by
  induction rest generalizing iterators fresh set datas with
  | nil =>
    obtain rfl := List.map_eq_nil_iff.mp hiterators
    cases hrest
    exact ⟨fresh, set, le_refl _, h, rfl⟩
  | cons data rest ih =>
    cases iterators with
    | nil => cases hiterators
    | cons iterator iterators =>
      obtain ⟨hdata, hiterators⟩ := List.cons.inj hiterators
      rw [List.foldlM_cons] at hrest
      cases hinsert : datas.insert (some data) with
      | error ex =>
        rw [hinsert] at hrest
        cases hrest
      | ok behind =>
        rw [hinsert] at hrest
        obtain ⟨set₁, hset₁, h₁⟩ := h.insert_ok hinsert
        obtain ⟨fresh', set', hle, h', hall⟩ := ih hiterators h₁ hrest
        refine ⟨fresh', set', Nat.le_of_succ_le hle, h', ?_⟩
        simp only [StoredSet.insertAll, hdata, hset₁, Option.bind_eq_bind, Option.bind_some]
        exact hall

theorem Built.copy (h : Built fresh set datas) : ∃ fresh' set', fresh ≤ fresh' ∧
    Built fresh' set' datas ∧ StoredSet.insertAll columns set set.m_creationOrder fresh .instantiate =
      some (.ok (), fresh', set') :=
  insertAll_spec set h.enumerates.order (built_empty fresh) (DataSet.foldlM_insert datas)

end Built

section World

variable {columns : Columns D} {world : World D} {sets : Nat → DataSet columns}

def Represents (world : World D) (sets : Nat → DataSet columns) : Prop :=
  ∀ i, Built world.fresh (world.sets i) (sets i)

theorem Represents.update (h : Represents world sets) {fresh : Nat} (hle : world.fresh ≤ fresh)
    {i : Nat} {set : StoredSet D} {datas : DataSet columns} (hset : Built fresh set datas) :
    Represents ⟨Function.update world.sets i set, fresh⟩ (Function.update sets i datas) := by
  intro j
  by_cases hj : j = i
  · subst hj
    simpa using hset
  · simpa [hj] using (h j).mono hle

theorem Represents.step (h : Represents world sets) {call : Call D} (hcall : Spared sets call) :
    ∃ world', world.step columns call = some ((expected sets call).1, world') ∧
      Represents world' (expected sets call).2 := by
  cases call with
  | insert i data =>
    cases hinsert : (sets i).insert data with
    | error ex =>
      have hset := (h i).insert_error hinsert
      refine ⟨⟨world.sets, world.fresh + 1⟩, ?_, ?_⟩
      · rw [World.step, hset, expected, hinsert]
        dsimp only
        rw [Function.update_eq_self]
      · rw [expected, hinsert]
        exact fun j => (h j).mono (Nat.le_succ world.fresh)
    | ok datas =>
      obtain ⟨set, hset, hbuilt⟩ := (h i).insert_ok hinsert
      refine ⟨⟨Function.update world.sets i set, world.fresh + 1⟩, ?_, ?_⟩
      · rw [World.step, hset, expected, hinsert]
      · rw [expected, hinsert]
        exact h.update (Nat.le_succ world.fresh) hbuilt
  | clear i =>
    have hempty : (world.sets i).clear = .instantiate := by
      have hdatas := (h i).datas
      rw [show (sets i).m_creationOrder = [] from hcall, List.map_eq_nil_iff] at hdatas
      have horder := (h i).iterators
      rw [hdatas] at horder
      rw [StoredSet.clear, horder]
      rfl
    refine ⟨_, rfl, ?_⟩
    rw [hempty]
    exact h.update (le_refl _) (built_empty _)
  | copy i j =>
    obtain ⟨fresh, set, hle, hset, hall⟩ := (h j).copy
    refine ⟨_, ?_, h.update hle hset⟩
    rw [World.step, hall]
    rfl
  | assign i j =>
    by_cases hij : i = j
    · subst hij
      refine ⟨world, by rw [World.step, if_pos rfl]; rfl, ?_⟩
      rw [expected, Function.update_eq_self]
      exact h
    · obtain ⟨fresh, set, hle, hset, hall⟩ := (h j).copy
      refine ⟨_, ?_, h.update hle hset⟩
      rw [World.step, if_neg hij]
      dsimp only
      rw [hall]
      rfl

theorem Represents.breaks (h : Represents world sets) {call : Call D}
    (hcall : ¬ Spared sets call) {world' : World D}
    (hstep : world.step columns call = some ((expected sets call).1, world')) :
    ¬ ∀ i, Enumerates (world'.sets i) ((expected sets call).2 i) := by
  cases call with
  | insert | copy | assign => exact absurd trivial hcall
  | clear i =>
    intro henumerates
    cases hstep
    have horder := (henumerates i).order
    simp only [expected, Function.update_self] at horder
    have hempty : (world.sets i).m_creationOrder = [] := List.map_eq_nil_iff.mp horder
    apply hcall
    rw [Spared, ← (h i).datas, List.map_eq_nil_iff, ← List.map_eq_nil_iff, ← (h i).iterators]
    exact hempty

/-- Every set of a program, copies included, enumerates its columns behind each call, and no iterator
is dereferenced without its node, just in the runs that clear no set with columns. -/
theorem enumerates_iff (columns : Columns D) (calls : List (Call D)) :
    (∀ pre, pre <+: calls → ∃ world,
        Runs.trace? (World.step columns) .instantiate pre =
          some ((Runs.trace expected (noColumns columns) pre).1, world) ∧
        ∀ i, Enumerates (world.sets i) ((Runs.trace expected (noColumns columns) pre).2 i)) ↔
      Runs.Meets (fun sets call => (expected sets call).2) Spared (noColumns columns) calls := by
  have hinv : ∀ (world : World D) (sets : Nat → DataSet columns), Represents world sets →
      ∀ i, Enumerates (world.sets i) (sets i) := fun _ _ h i => (h i).enumerates
  have hkeeps : ∀ (world : World D) (sets : Nat → DataSet columns) (call : Call D),
      Represents world sets → Spared sets call → ∃ world',
        world.step columns call = some ((expected sets call).1, world') ∧
          Represents world' (expected sets call).2 := fun _ _ _ h hcall => h.step hcall
  exact Runs.trace?_iff_meets hinv hkeeps (fun _ _ _ h hcall _ hstep => h.breaks hcall hstep)
    (fun _ => built_empty 0)

end World

theorem not_enumerates : ¬ ∀ calls : List (Call Datatype.Abstract), ∃ world,
    Runs.trace? (World.step Datatype.columns) .instantiate calls =
        some ((Runs.trace expected (noColumns Datatype.columns) calls).1, world) ∧
      ∀ i, Enumerates (world.sets i)
        ((Runs.trace expected (noColumns Datatype.columns) calls).2 i) := by
  intro h
  let column : Datatype.Abstract := ⟨⟨Basis.text "id", by decide⟩, 4, .CanNotBeNull, false, .Integer 1⟩
  obtain ⟨world, hworld, henumerates⟩ := h [.insert 0 (some column), .clear 0]
  cases hworld
  exact absurd (henumerates 0).order (by decide)

end Coffee.Dbms.SetStorage
