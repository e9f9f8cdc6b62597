import Coffee.Dbms.Clone
import Coffee.Dbms.DataSet
import Coffee.Library.Runs

/-! # Objects of a class

`Class::createObject` gives each object a clone of every member of the class, and the key pointer of
the caller.
-/

namespace Coffee.Persistence.ClassObject

open Coffee.Basis Coffee.Library Coffee.Dbms Coffee.Dbms.Datatype Coffee.Dbms.Clone

structure Pointer where
  name : CString
  object : Nat
deriving DecidableEq, Repr

/-- The sets of this module are built and searched, and none of them is compared. -/
def pointers : Columns Pointer := ⟨Pointer.name, fun _ _ => .error .canNotApply⟩

/-- The members are in the order in which the hash map lists them. -/
structure Class where
  m_primaryKey : DataSet pointers
  m_members : DataSet pointers

structure Object where
  m_primaryKey : DataSet pointers
  members : DataSet pointers

inductive ObjectException where
  | keyMismatch
  | insert (ex : InsertException)
deriving DecidableEq, Repr

/-- The datatype of a column; `some none` is `Float`. -/
def getType (world : World) (i : Nat) : Option (Option Datatype) :=
  world.objects[i]?.map fun object => match object with
    | .plain (.of column) => some column.getType
    | .plain (.Float _) => none
    | .String _ => some .String

/-- `PrimaryKey::matches` -/
def doesMatch (world : World) (key other : DataSet pointers) : Bool :=
  key.size == other.size && key.m_creationOrder.all fun pointer =>
    match other.m_creationOrder.find? fun found => found.name = pointer.name with
    | none => false
    | some found => getType world found.object == getType world pointer.object

/-- The loop over the members. `fresh` is what the memory for the clone of each column holds. -/
def insertClones (fresh : Nat → Nat → UInt8) :
    List Pointer → World → DataSet pointers → Except InsertException (DataSet pointers) × World
  | [], world, members => (.ok members, world)
  | pointer :: rest, world, members =>
    let copy := world.objects.length
    let world := world.clone pointer.object (fresh pointer.object)
    match members.insert (some ⟨pointer.name, copy⟩) with
    | .error ex => (.error ex, world)
    | .ok members => insertClones fresh rest world members

def createObject (world : World) (clazz : Class) (primaryKey : DataSet pointers)
    (fresh : Nat → Nat → UInt8) : Except ObjectException Object × World :=
  if !doesMatch world clazz.m_primaryKey primaryKey then (.error .keyMismatch, world)
  else match insertClones fresh clazz.m_members.m_creationOrder world .empty with
    | (.error ex, world) => (.error (.insert ex), world)
    | (.ok members, world) => (.ok ⟨primaryKey, members⟩, world)

inductive Operation where
  | construct (type : Datatype) (name : CString) (maxSize : Nat) (constraint : Constraint)
  | constructFloat (name : CString) (constraint : Constraint)
  | set (i : Nat) (setter : Setter)
  | clone (i : Nat) (fresh : Nat → UInt8)
  | createObject (clazz : Class) (primaryKey : DataSet pointers) (fresh : Nat → Nat → UInt8)

def step (world : World) : Operation → World
  | .construct type name maxSize constraint => world.construct type name maxSize constraint
  | .constructFloat name constraint => world.constructFloat name constraint
  | .set i setter => (world.set i setter).2
  | .clone i fresh => world.clone i fresh
  | .createObject clazz primaryKey fresh => (createObject world clazz primaryKey fresh).2

/-- A clone is faithful, and a new object has the key that is given and a faithful clone of every
member. -/
def Law (string : Bytes → UInt64) (float : UInt32 → UInt64) (world : World) : Operation → Prop
  | .clone i fresh => Faithful string float world (world.clone i fresh) i world.objects.length
  | .createObject clazz primaryKey fresh => doesMatch world clazz.m_primaryKey primaryKey = true →
      ∃ object after, createObject world clazz primaryKey fresh = (.ok object, after) ∧
        object.m_primaryKey = primaryKey ∧ object.members.names = clazz.m_members.names ∧
        (∀ i < world.objects.length, after.view i = world.view i) ∧
        ∀ pointer ∈ clazz.m_members.m_creationOrder, ∃ copy ∈ object.members.m_creationOrder,
          copy.name = pointer.name ∧ Faithful string float world after pointer.object copy.object
  | _ => True

def Terminated (world : World) : Operation → Prop
  | .clone i fresh => ∃ column, world.view i = some column ∧ Copied fresh column
  | .createObject clazz primaryKey fresh => doesMatch world clazz.m_primaryKey primaryKey = true →
      ∀ pointer ∈ clazz.m_members.m_creationOrder, ∃ column,
        world.view pointer.object = some column ∧ Copied (fresh pointer.object) column
  | _ => True

section Creation

variable {world : World} {fresh : Nat → Nat → UInt8} {string : Bytes → UInt64}
  {float : UInt32 → UInt64}

theorem insert_of_not_mem {members : DataSet pointers} {pointer : Pointer}
    (h : pointers.getName pointer ∉ members.names) :
    ∃ members', members.insert (some pointer) = .ok members' ∧
      members'.m_creationOrder = members.m_creationOrder ++ [pointer] := by
  rw [DataSet.insert, dif_neg h]
  exact ⟨_, rfl, rfl⟩

theorem insertClones_spec (hwell : WellFormed world) {rest : List Pointer}
    {members : DataSet pointers}
    (hcopied : ∀ pointer ∈ rest, ∃ column, world.view pointer.object = some column ∧
      Copied (fresh pointer.object) column)
    (hnames : (members.names ++ rest.map Pointer.name).Nodup) :
    ∃ members' after, insertClones fresh rest world members = (.ok members', after) ∧
      WellFormed after ∧ members'.names = members.names ++ rest.map Pointer.name ∧
      (∀ i < world.objects.length, after.view i = world.view i) ∧
      (∀ copy ∈ members.m_creationOrder, copy ∈ members'.m_creationOrder) ∧
      ∀ pointer ∈ rest, ∃ copy ∈ members'.m_creationOrder, copy.name = pointer.name ∧
        world.objects.length ≤ copy.object ∧ after.view copy.object = world.view pointer.object := by
  induction rest generalizing world members with
  | nil =>
    exact ⟨members, world, rfl, hwell, (List.append_nil _).symm, fun _ _ => rfl, fun _ h => h,
      List.forall_mem_nil _⟩
  | cons pointer rest ih =>
    obtain ⟨⟨column, hview, hcopy⟩, hcopied⟩ := List.forall_mem_cons.mp hcopied
    obtain ⟨hwell₁, hnew, hold⟩ := World.clone_spec hwell hview hcopy
    have hlength := World.length_clone (World.lt_of_view hview) (fresh pointer.object)
    have hsame : ∀ other ∈ rest, (world.clone pointer.object (fresh pointer.object)).view
        other.object = world.view other.object := by
      intro other hother
      obtain ⟨_, hother, -⟩ := hcopied other hother
      exact hold other.object (World.lt_of_view hother)
    have hnot : pointers.getName pointer ∉ members.names := by
      intro hmem
      exact (List.nodup_append.mp hnames).2.2 _ hmem _ List.mem_cons_self rfl
    let copy : Pointer := ⟨pointer.name, world.objects.length⟩
    obtain ⟨members₁, hinsert, horder⟩ := @insert_of_not_mem members copy hnot
    have hnames₁ : members₁.names = members.names ++ [pointer.name] := by
      rw [DataSet.names, horder, List.map_append]
      rfl
    have hcopied₁ : ∀ other ∈ rest, ∃ column,
        (world.clone pointer.object (fresh pointer.object)).view other.object = some column ∧
          Copied (fresh other.object) column := by
      intro other hother
      rw [hsame other hother]
      exact hcopied other hother
    obtain ⟨members', after, hall, hwell', hnames', hkept, hsub, hclones⟩ :=
      ih hwell₁ hcopied₁ (by rw [hnames₁, List.append_assoc]; exact hnames)
    refine ⟨members', after, ?_, hwell', ?_, ?_, ?_, ?_⟩
    · rw [insertClones, hinsert]
      exact hall
    · rw [hnames', hnames₁, List.append_assoc]
      rfl
    · intro i hi
      rw [hkept i (by omega), hold i hi]
    · intro other hother
      exact hsub other (by rw [horder]; exact List.mem_append_left _ hother)
    · intro other hother
      obtain rfl | hother := List.mem_cons.mp hother
      · refine ⟨copy, hsub copy (by rw [horder]; simp), rfl, le_refl _, ?_⟩
        rw [hkept copy.object (by rw [hlength]; exact Nat.lt_succ_self _), hnew, hview]
      · obtain ⟨found, hfound, hname, hle, hview'⟩ := hclones other hother
        refine ⟨found, hfound, hname, by omega, ?_⟩
        rw [hview', hsame other hother]

theorem wellFormed_construct (hwell : WellFormed world) (type : Datatype) (name : CString)
    (maxSize : Nat) (constraint : Constraint) :
    WellFormed (world.construct type name maxSize constraint) := by
  cases type with
  | String => exact World.wellFormed_string hwell rfl List.length_replicate (by simp)
  | Integer | ShortBlock | LongBlock | Date | TimeStamp | MultiString =>
    exact World.wellFormed_plain hwell _

theorem wellFormed_start : WellFormed ⟨[], []⟩ := by
  constructor <;> intros <;> simp_all

theorem step_spec (string : Bytes → UInt64) (float : UInt32 → UInt64) (hwell : WellFormed world)
    {operation : Operation} (h : Terminated world operation) :
    WellFormed (step world operation) ∧ Law string float world operation := by
  cases operation with
  | construct type name maxSize constraint =>
    exact ⟨wellFormed_construct hwell type name maxSize constraint, trivial⟩
  | constructFloat => exact ⟨World.wellFormed_plain hwell _, trivial⟩
  | set i setter => exact ⟨World.wellFormed_set hwell i setter, trivial⟩
  | clone i fresh =>
    obtain ⟨column, hview, hcopied⟩ := h
    obtain ⟨hwell', hnew, hold⟩ := World.clone_spec hwell hview hcopied
    have hi := World.lt_of_view hview
    exact ⟨hwell', World.faithful hwell' hview ((hold i hi).trans hview) hnew (Nat.ne_of_lt hi)⟩
  | createObject clazz primaryKey fresh =>
    cases hmatch : doesMatch world clazz.m_primaryKey primaryKey with
    | false =>
      have hsame : step world (.createObject clazz primaryKey fresh) = world := by
        simp [step, createObject, hmatch]
      refine ⟨by rwa [hsame], fun htrue => ?_⟩
      rw [hmatch] at htrue
      cases htrue
    | true =>
      have hcopied := h hmatch
      obtain ⟨members, after, hall, hwell', hnames, hkept, -, hclones⟩ :=
        @insertClones_spec world fresh hwell clazz.m_members.m_creationOrder .empty hcopied
          clazz.m_members.nodup
      have hcreate : createObject world clazz primaryKey fresh =
          (.ok ⟨primaryKey, members⟩, after) := by
        rw [createObject, hmatch, hall]
        rfl
      refine ⟨by rwa [step, hcreate], fun _ => ?_⟩
      refine ⟨⟨primaryKey, members⟩, after, hcreate, rfl, hnames, hkept, ?_⟩
      intro pointer hpointer
      obtain ⟨copy, hmem, hname, hle, hsame⟩ := hclones pointer hpointer
      obtain ⟨column, hview, -⟩ := hcopied pointer hpointer
      have hi := World.lt_of_view hview
      refine ⟨copy, hmem, hname, World.faithful hwell' hview ((hkept _ hi).trans hview)
        (hsame.trans hview) ?_⟩
      omega

end Creation

/-- In every run, from no column at all, every clone is faithful, and every object has faithful
clones of the members of its class, where the strings are copied with their terminators. -/
theorem law_of_terminated (string : Bytes → UInt64) (float : UInt32 → UInt64)
    (operations : List Operation) (h : Runs.Meets step Terminated ⟨[], []⟩ operations) :
    Runs.Meets step (Law string float) ⟨[], []⟩ operations :=
  h.of_invariant (fun _ _ hwell hstep => step_spec string float hwell hstep) wellFormed_start

theorem law_of_terminated_string :
    let s : CString := ⟨text "s", by decide⟩
    let n : CString := ⟨text "n", by decide⟩
    let operations : List Operation := [.construct .String s 3 .CanBeNull,
      .set 0 (.setString (some ⟨text "ab", by decide⟩)), .construct .Integer n 4 .CanNotBeNull,
      .clone 1 (fun _ => 7), .createObject ⟨⟨[⟨n, 1⟩], by decide⟩, ⟨[⟨s, 0⟩, ⟨n, 1⟩], by decide⟩⟩
        ⟨[⟨n, 2⟩], by decide⟩ (fun _ _ => 7), .clone 3 (fun _ => 7)]
    Runs.Meets step (Law (fun _ => 0) (fun _ => 0)) ⟨[], []⟩ operations := by
  intro s n operations
  refine law_of_terminated _ _ _ ⟨trivial, trivial, trivial, ⟨_, rfl, trivial⟩, ?_, ⟨_, rfl, ?_⟩,
    trivial⟩
  · intro _ pointer hpointer
    obtain rfl | hpointer := List.mem_cons.mp hpointer
    · exact ⟨_, rfl, .inl (by decide)⟩
    · rw [List.mem_singleton.mp hpointer]
      exact ⟨_, rfl, trivial⟩
  · exact .inl (by decide)

def compareClone (world : World) (i : Nat) (fresh : Nat → UInt8) :
    Option (Except CompareException Int32) := do
  let column ← world.view i
  let copy ← (world.clone i fresh).view world.objects.length
  return copy.compare column

/-- Blocks are not compared, a NaN is not itself, and the clone of a string of the greatest length
cannot be read. -/
theorem compareClone_ne :
    let name : CString := ⟨text "x", by decide⟩
    compareClone (Runs.run step ⟨[], []⟩ [.construct .ShortBlock name 4 .CanBeNull,
      .set 0 (.setBlock [1])]) 0 (fun _ => 1) = some (.error .canNotApply) ∧
    compareClone (Runs.run step ⟨[], []⟩ [.constructFloat name .CanBeNull,
      .set 0 (.setFloat 0x7fc00000)]) 0 (fun _ => 1) = some (.ok 1) ∧
    (let world := Runs.run step ⟨[], []⟩ [.construct .String name 1 .CanBeNull,
      .set 0 (.setString (some name))]
    (world.view 0).isSome = true ∧ compareClone world 0 (fun _ => 1) = none) := by
  refine ⟨?_, ?_, ?_, ?_⟩ <;> decide +kernel

end Coffee.Persistence.ClassObject
