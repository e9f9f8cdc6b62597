import Coffee.Dbms.Column
import Coffee.Dbms.DatatypeOrder
import Mathlib.Data.List.GetD

/-! # Clones of columns

A `String` keeps its value in a block of memory of its own, of one byte more than its greatest size.
The other columns store their values themselves.
-/

namespace Coffee.Dbms.Clone

open Coffee.Basis Datatype

/-- `m_value` is the address of the block. -/
structure StringObject where
  m_name : CString
  m_maxSize : Nat
  m_constraint : Constraint
  m_isNull : Bool
  m_value : Nat
deriving DecidableEq, Repr

inductive Object where
  | plain (column : Column)
  | String (object : StringObject)
deriving DecidableEq, Repr

/-- `strcpy` into the block. -/
def strcpy (block str : Bytes) : Bytes := str ++ 0 :: block.drop (str.length + 1)

def memcpy (dest source : Bytes) (n : Nat) : Bytes := source.take n ++ dest.drop n

namespace StringObject

variable (object : StringObject) (block : Bytes)

/-- The column that the object is to the callers, with this content of its block. -/
def column : Abstract :=
  ⟨object.m_name, object.m_maxSize, object.m_constraint, object.m_isNull,
    .String (CString.ofBytes block)⟩

def isNull : Except SetException Unit × StringObject :=
  if object.m_constraint = .CanNotBeNull then (.error .canNotBeNull, object)
  else (.ok (), { object with m_isNull := true })

def clear : StringObject × Bytes :=
  ({ object with m_isNull := object.m_isNull || object.m_constraint = .CanBeNull }, block.set 0 0)

def setValue (str : Option CString) : Except SetException Unit × StringObject × Bytes :=
  match str with
  | none => match object.isNull with
    | (.error ex, object) => (.error ex, object, block)
    | (.ok (), object) => (.ok (), object.clear block)
  | some str =>
    if object.m_maxSize < str.val.length then
      (.error (.outOfRange object.m_maxSize str.val.length), object, block)
    else (.ok (), { object with m_isNull := false }, strcpy block str)

def set : Setter → Except SetException Unit × StringObject × Bytes
  | .isNull => (object.isNull.1, object.isNull.2, block)
  | .clear => (.ok (), object.clear block)
  | .setString str => object.setValue block str
  | _ => (.ok (), object, block)

end StringObject

/-- The columns of a program, in the order of their construction, and its blocks by their
addresses. -/
structure World where
  objects : List Object
  blocks : List Bytes
deriving DecidableEq, Repr

namespace World

variable (world : World)

def block (object : StringObject) : Bytes := world.blocks.getD object.m_value []

/-- What the callers see of a column. To read a block without a NUL runs past its end, which is
undefined. -/
def view (i : Nat) : Option Column :=
  match world.objects[i]? with
  | none => none
  | some (.plain column) => some column
  | some (.String object) =>
    if 0 ∈ world.block object then some (.of (object.column (world.block object))) else none

def construct (type : Datatype) (name : CString) (maxSize : Nat) (constraint : Constraint) : World :=
  match type with
  | .String => ⟨world.objects ++ [.String ⟨name, maxSize, constraint, constraint = .CanBeNull,
      world.blocks.length⟩], world.blocks ++ [List.replicate (maxSize + 1) 0]⟩
  | _ => { world with
      objects := world.objects ++ [.plain (.of (.instantiate type name maxSize constraint))] }

def constructFloat (name : CString) (constraint : Constraint) : World :=
  { world with objects := world.objects ++ [.plain (.Float (.instantiate name constraint))] }

def set (i : Nat) (setter : Setter) : Except SetException Unit × World :=
  match world.objects[i]? with
  | none => (.ok (), world)
  | some (.plain column) =>
    let (result, column) := column.set setter
    (result, { world with objects := world.objects.set i (.plain column) })
  | some (.String object) =>
    let (result, after, block) := object.set (world.block object) setter
    (result, ⟨world.objects.set i (.String after), world.blocks.set object.m_value block⟩)

/-- `fresh` is what the new block holds. Its last byte is not copied. -/
def clone (i : Nat) (fresh : Nat → UInt8) : World :=
  match world.objects[i]? with
  | none => world
  | some (.plain column) => { world with objects := world.objects ++ [.plain column] }
  | some (.String object) =>
    let block := memcpy ((List.range (object.m_maxSize + 1)).map fresh) (world.block object)
      object.m_maxSize
    ⟨world.objects ++ [.String { object with m_value := world.blocks.length }],
      world.blocks ++ [block]⟩

def setAll (i : Nat) (setters : List Setter) : World :=
  setters.foldl (fun world setter => (world.set i setter).2) world

end World

/-- The block of a string has its size and a NUL in it. -/
structure Sound (world : World) (object : StringObject) : Prop where
  address : object.m_value < world.blocks.length
  length : (world.block object).length = object.m_maxSize + 1
  terminated : 0 ∈ world.block object

/-- Each string has a sound block of its own. -/
structure WellFormed (world : World) : Prop where
  sound : ∀ (i : Nat) object, world.objects[i]? = some (Object.String object) → Sound world object
  distinct : ∀ (i j : Nat) object other, world.objects[i]? = some (Object.String object) →
    world.objects[j]? = some (Object.String other) → object.m_value = other.m_value → i = j

section Blocks

variable {object : StringObject} {block : Bytes}

theorem cStr_strcpy (block : Bytes) (str : CString) : cStr (strcpy block str) = str := by
  rw [cStr, strcpy, List.takeWhile_append_of_pos]
  · simp
  · intro c hc
    simpa using fun h0 : c = 0 => str.property (h0 ▸ hc)

theorem length_strcpy {str : Bytes} {n : Nat} (hblock : block.length = n + 1)
    (hstr : str.length ≤ n) : (strcpy block str).length = n + 1 := by
  simp only [strcpy, List.length_append, List.length_cons, List.length_drop]
  omega

theorem ofBytes_eq {s : Bytes} {str : CString} (h : cStr s = str) : CString.ofBytes s = str :=
  Subtype.ext h

theorem StringObject.column_clear (hblock : block ≠ []) :
    (object.clear block).1.column (object.clear block).2 = (object.column block).clear := by
  have hempty : cStr (block.set 0 0) = [] := by
    cases block with
    | nil => exact absurd rfl hblock
    | cons c block => rfl
  simp only [clear, column, Abstract.clear, Abstract.getType, Value.getType, Value.zero]
  congr 2
  exact ofBytes_eq hempty

/-- The setters of a string have the effects of the setters of its column, and leave a block of the
same size with a NUL. -/
theorem StringObject.set_spec (hlength : block.length = object.m_maxSize + 1) (h0 : 0 ∈ block)
    (setter : Setter) : ∃ result after block', object.set block setter = (result, after, block') ∧
      (object.column block).set setter = (result, after.column block') ∧
      after.m_value = object.m_value ∧ after.m_maxSize = object.m_maxSize ∧
      block'.length = object.m_maxSize + 1 ∧ 0 ∈ block' := by
  have hblock : block ≠ [] := List.ne_nil_of_length_eq_add_one hlength
  have hcleared : (block.set 0 0).length = object.m_maxSize + 1 ∧ 0 ∈ block.set 0 0 := by
    refine ⟨by rw [List.length_set, hlength], ?_⟩
    exact List.mem_set (List.length_pos_of_ne_nil hblock) 0
  cases setter with
  | isNull =>
    by_cases hnull : object.m_constraint = .CanNotBeNull
    · refine ⟨_, _, _, rfl, ?_, ?_, ?_, hlength, h0⟩ <;>
        simp [isNull, hnull, Abstract.set, Abstract.setNull, Abstract.isNull, column]
    · refine ⟨_, _, _, rfl, ?_, ?_, ?_, hlength, h0⟩ <;>
        simp [isNull, hnull, Abstract.set, Abstract.setNull, Abstract.isNull, column]
  | clear =>
    refine ⟨_, _, _, rfl, ?_, rfl, rfl, hcleared⟩
    exact congrArg (Prod.mk _) (column_clear hblock).symm
  | setInteger | setFloat | setBlock | setDate | setDateText | addValue =>
    exact ⟨_, _, _, rfl, rfl, rfl, rfl, hlength, h0⟩
  | setString str =>
    have hset : (object.column block).set (.setString str) =
        String.setValue (object.column block) str := rfl
    rw [hset, set]
    cases str with
    | none =>
      rw [setValue]
      by_cases hnull : object.m_constraint = .CanNotBeNull
      · refine ⟨.error .canNotBeNull, object, block, by simp [isNull, hnull], ?_, rfl, rfl, hlength,
          h0⟩
        simp [String.setValue, Abstract.setNull, Abstract.isNull, column, hnull]
      · refine ⟨.ok (), (clear { object with m_isNull := true } block).1, block.set 0 0,
          by simp [isNull, hnull, clear], ?_, rfl, rfl, hcleared⟩
        have hclear := @column_clear { object with m_isNull := true } block hblock
        refine Eq.trans ?_ (congrArg (Prod.mk (Except.ok ())) hclear.symm)
        simp [String.setValue, Abstract.setNull, Abstract.isNull, column, hnull]
    | some str =>
      rw [setValue]
      by_cases hlen : object.m_maxSize < str.val.length
      · refine ⟨.error (.outOfRange object.m_maxSize str.val.length), object, block, by simp [hlen],
          ?_, rfl, rfl, hlength, h0⟩
        simp [String.setValue, column, hlen]
      · refine ⟨.ok (), { object with m_isNull := false }, strcpy block str, by simp [hlen], ?_, rfl,
          rfl, length_strcpy hlength (by omega), by simp [strcpy]⟩
        simp [String.setValue, column, hlen, Abstract.store, ofBytes_eq (cStr_strcpy block str)]

end Blocks

namespace World

variable {world : World} {i j : Nat}

theorem view_plain {column : Column} (h : world.objects[i]? = some (.plain column)) :
    world.view i = some column := by
  rw [view, h]

theorem view_string {object : StringObject} (hwell : WellFormed world)
    (h : world.objects[i]? = some (.String object)) :
    world.view i = some (.of (object.column (world.block object))) := by
  rw [view, h]
  exact if_pos (hwell.sound i object h).terminated

/-- A column is seen the same where its object and its block are the same. -/
theorem view_congr {after : World} (hobject : after.objects[j]? = world.objects[j]?)
    (hblock : ∀ object, world.objects[j]? = some (.String object) →
      after.block object = world.block object) : after.view j = world.view j := by
  rw [view, view, hobject]
  cases h : world.objects[j]? with
  | none => rfl
  | some object =>
    cases object with
    | plain column => rfl
    | String object =>
      dsimp only
      rw [hblock object h]

theorem block_set {object other : StringObject} {objects : List Object} {block : Bytes}
    (hother : other.m_value ≠ object.m_value) :
    World.block ⟨objects, world.blocks.set object.m_value block⟩ other = world.block other := by
  rw [World.block, World.block, List.getD_eq_getElem?_getD, List.getD_eq_getElem?_getD,
    List.getElem?_set_ne hother.symm]

theorem block_append {object : StringObject} {objects : List Object} {block : Bytes}
    (h : object.m_value < world.blocks.length) :
    World.block ⟨objects, world.blocks ++ [block]⟩ object = world.block object := by
  rw [World.block, World.block, List.getD_eq_getElem?_getD, List.getD_eq_getElem?_getD,
    List.getElem?_append_left h]

theorem block_set_self {object other : StringObject} {objects : List Object} {block : Bytes}
    (hother : other.m_value = object.m_value) (h : object.m_value < world.blocks.length) :
    World.block ⟨objects, world.blocks.set object.m_value block⟩ other = block := by
  rw [World.block, hother, List.getD_eq_getElem?_getD, List.getElem?_set_self h]
  rfl

theorem set_string {object : StringObject} (hwell : WellFormed world)
    (h : world.objects[i]? = some (.String object)) (setter : Setter) :
    ∃ result after block', world.set i setter = (result,
        ⟨world.objects.set i (.String after), world.blocks.set object.m_value block'⟩) ∧
      (object.column (world.block object)).set setter = (result, after.column block') ∧
      after.m_value = object.m_value ∧ after.m_maxSize = object.m_maxSize ∧
      block'.length = object.m_maxSize + 1 ∧ 0 ∈ block' := by
  have hsound := hwell.sound i object h
  obtain ⟨result, after, block', hset, hrest⟩ :=
    StringObject.set_spec hsound.length hsound.terminated setter
  exact ⟨result, after, block', by rw [World.set, h]; simp only [hset], hrest⟩

theorem set_plain {column : Column} (h : world.objects[i]? = some (.plain column))
    (setter : Setter) : world.set i setter = ((column.set setter).1,
      { world with objects := world.objects.set i (.plain (column.set setter).2) }) := by
  rw [World.set, h]

theorem set_none (h : world.objects[i]? = none) (setter : Setter) :
    world.set i setter = (.ok (), world) := by
  rw [World.set, h]

theorem lt_of_getElem? {object : Object} (h : world.objects[i]? = some object) :
    i < world.objects.length := (List.getElem?_eq_some_iff.mp h).1

theorem getElem?_set_cases {object other : Object} (hi : i < world.objects.length)
    (h : (world.objects.set i object)[j]? = some other) :
    j = i ∧ other = object ∨ j ≠ i ∧ world.objects[j]? = some other := by
  by_cases hji : j = i
  · subst hji
    rw [List.getElem?_set_self hi] at h
    exact .inl ⟨rfl, (Option.some.inj h).symm⟩
  · rw [List.getElem?_set_ne (Ne.symm hji)] at h
    exact .inr ⟨hji, h⟩

theorem wellFormed_of_same (hwell : WellFormed world) {objects : List Object}
    (hstring : ∀ (k : Nat) other, objects[k]? = some (Object.String other) →
      world.objects[k]? = some (Object.String other)) :
    WellFormed { world with objects } := by
  constructor
  · intro k other hk
    have hsound := hwell.sound k other (hstring k other hk)
    exact ⟨hsound.address, hsound.length, hsound.terminated⟩
  · intro k k' other other' hk hk'
    exact hwell.distinct k k' other other' (hstring k other hk) (hstring k' other' hk')

/-- All strings but one are as they were, and that one has a sound block that no other has. -/
theorem wellFormed_update {after : World} {object : StringObject} (hwell : WellFormed world)
    (hlength : world.blocks.length ≤ after.blocks.length)
    (hstring : ∀ (k : Nat) other, after.objects[k]? = some (Object.String other) →
      k = i ∧ Object.String other = .String object ∨
        k ≠ i ∧ world.objects[k]? = some (Object.String other))
    (hsound : Sound after object)
    (hapart : ∀ k other, k ≠ i → world.objects[k]? = some (Object.String other) →
      other.m_value ≠ object.m_value ∧ after.block other = world.block other) :
    WellFormed after := by
  constructor
  · intro k other hk
    obtain ⟨-, hnew⟩ | ⟨hki, hold⟩ := hstring k other hk
    · cases hnew
      exact hsound
    · have hbefore := hwell.sound k other hold
      obtain ⟨-, hblock⟩ := hapart k other hki hold
      refine ⟨Nat.lt_of_lt_of_le hbefore.address hlength, ?_, ?_⟩
      · rw [hblock]
        exact hbefore.length
      · rw [hblock]
        exact hbefore.terminated
  · intro k k' other other' hk hk' heq
    obtain ⟨rfl, hnew⟩ | ⟨hki, hold⟩ := hstring k other hk
    · cases hnew
      obtain ⟨rfl, -⟩ | ⟨hki', hold'⟩ := hstring k' other' hk'
      · rfl
      · exact absurd heq.symm (hapart k' other' hki' hold').1
    · obtain ⟨rfl, hnew⟩ | ⟨-, hold'⟩ := hstring k' other' hk'
      · cases hnew
        exact absurd heq (hapart k other hki hold).1
      · exact hwell.distinct k k' other other' hold hold' heq

theorem wellFormed_set (hwell : WellFormed world) (i : Nat) (setter : Setter) :
    WellFormed (world.set i setter).2 := by
  cases h : world.objects[i]? with
  | none => rwa [set_none h]
  | some object =>
    have hi := lt_of_getElem? h
    cases object with
    | plain column =>
      rw [set_plain h]
      refine wellFormed_of_same hwell fun k other hk => ?_
      obtain ⟨-, hnew⟩ | ⟨-, hold⟩ := getElem?_set_cases hi hk
      · cases hnew
      · exact hold
    | String object =>
      obtain ⟨result, after, block', hset, -, hvalue, hsize, hlength, h0⟩ :=
        set_string hwell h setter
      have haddress := (hwell.sound i object h).address
      have hblock : World.block ⟨world.objects.set i (.String after),
          world.blocks.set object.m_value block'⟩ after = block' :=
        block_set_self hvalue haddress
      rw [hset]
      refine wellFormed_update hwell (Nat.le_of_eq List.length_set.symm)
        (fun k other hk => getElem?_set_cases hi hk) ⟨?_, ?_, ?_⟩ ?_
      · rw [List.length_set, hvalue]
        exact haddress
      · rw [hblock, hlength, hsize]
      · rw [hblock]
        exact h0
      · intro k other hki hold
        have hne : other.m_value ≠ object.m_value := fun heq =>
          hki (hwell.distinct k i other object hold h heq)
        exact ⟨hvalue ▸ hne, block_set hne⟩

/-- A setter changes no other column. -/
theorem view_set_of_ne (hwell : WellFormed world) (setter : Setter) (hij : j ≠ i) :
    (world.set i setter).2.view j = world.view j := by
  cases h : world.objects[i]? with
  | none => rw [set_none h]
  | some object =>
    cases object with
    | plain column =>
      rw [set_plain h]
      exact view_congr (List.getElem?_set_ne hij.symm) fun _ _ => rfl
    | String object =>
      obtain ⟨result, after, block', hset, -⟩ := set_string hwell h setter
      rw [hset]
      refine view_congr (List.getElem?_set_ne hij.symm) fun other hother => block_set fun heq => ?_
      exact hij (hwell.distinct j i other object hother h heq)

/-- A setter is the one of the column that is seen. -/
theorem view_set_self (hwell : WellFormed world) {column : Column} (h : world.view i = some column)
    (setter : Setter) : (world.set i setter).1 = (column.set setter).1 ∧
      (world.set i setter).2.view i = some (column.set setter).2 := by
  cases hobject : world.objects[i]? with
  | none =>
    rw [view, hobject] at h
    cases h
  | some object =>
    have hi := lt_of_getElem? hobject
    cases object with
    | plain other =>
      rw [view_plain hobject] at h
      cases h
      rw [set_plain hobject]
      exact ⟨rfl, view_plain (List.getElem?_set_self hi)⟩
    | String object =>
      obtain ⟨result, after, block', hset, hcolumn, hvalue, -, -, h0⟩ :=
        set_string hwell hobject setter
      have haddress := (hwell.sound i object hobject).address
      have hwell' := wellFormed_set hwell i setter
      rw [view_string hwell hobject] at h
      cases h
      rw [hset] at hwell' ⊢
      have hview := view_string hwell' (List.getElem?_set_self hi)
      rw [block_set_self hvalue haddress] at hview
      rw [Column.set, hcolumn]
      exact ⟨rfl, hview⟩

theorem view_setAll_of_ne (hwell : WellFormed world) (setters : List Setter) (hij : j ≠ i) :
    (world.setAll i setters).view j = world.view j := by
  induction setters generalizing world with
  | nil => rfl
  | cons setter setters ih =>
    exact (ih (wellFormed_set hwell i setter)).trans (view_set_of_ne hwell setter hij)

end World

section Copy

variable {block : Bytes} {n : Nat} {fresh : Nat → UInt8}

theorem length_cStr_lt_iff {s : Bytes} : (cStr s).length < s.length ↔ 0 ∈ s := by
  induction s with
  | nil => simp [cStr]
  | cons c s ih =>
    by_cases hc : c = 0
    · simp [cStr, hc]
    · have hcons : cStr (c :: s) = c :: cStr s := List.takeWhile_cons_of_pos (by simpa using hc)
      simp [hcons, ih, Ne.symm hc]

theorem cStr_append {s : Bytes} (h : 0 ∈ s) (t : Bytes) : cStr (s ++ t) = cStr s := by
  have hlt : (s.takeWhile (· ≠ 0)).length < s.length := length_cStr_lt_iff.mpr h
  rw [cStr, List.takeWhile_append, if_neg (Nat.ne_of_lt hlt)]
  rfl

/-- The copy of a block, its last byte from the fresh memory. -/
theorem memcpy_fresh (block : Bytes) (fresh : Nat → UInt8) (n : Nat) :
    memcpy ((List.range (n + 1)).map fresh) block n = block.take n ++ [fresh n] := by
  rw [memcpy, ← List.map_drop, List.range_succ, List.drop_append_of_le_length (by simp)]
  simp

theorem exists_split (hlength : block.length = n + 1) :
    ∃ c, block = block.take n ++ [c] ∧ (block.take n).length = n := by
  have hdrop : (block.drop n).length = 1 := by
    rw [List.length_drop]
    omega
  obtain ⟨c, hc⟩ := List.length_eq_one_iff.mp hdrop
  refine ⟨c, by rw [← hc, List.take_append_drop], ?_⟩
  rw [List.length_take]
  omega

/-- A copy has a NUL where the value leaves room for one in front of the last byte, or that byte is
one. -/
theorem copy_terminated_iff (hlength : block.length = n + 1) :
    0 ∈ block.take n ++ [fresh n] ↔ (cStr block).length < n ∨ fresh n = 0 := by
  obtain ⟨c, hblock, hfront⟩ := exists_split hlength
  have hshort : (cStr block).length < n ↔ 0 ∈ block.take n := by
    constructor
    · intro hlt
      by_contra hnot
      have hvalue : cStr block = block.take n ++ cStr [c] := by
        conv_lhs => rw [hblock]
        rw [cStr, List.takeWhile_append_of_pos]
        · rfl
        · intro byte hbyte
          simpa using fun hzero : byte = 0 => hnot (hzero ▸ hbyte)
      rw [hvalue, List.length_append, hfront] at hlt
      omega
    · intro hmem
      have hvalue : cStr block = cStr (block.take n) := by
        conv_lhs => rw [hblock]
        exact cStr_append hmem [c]
      rw [hvalue]
      exact (length_cStr_lt_iff.mpr hmem).trans_eq hfront
  rw [hshort, List.mem_append, List.mem_singleton, eq_comm (a := 0)]

theorem cStr_copy (hlength : block.length = n + 1) (h0 : 0 ∈ block)
    (hcopy : 0 ∈ block.take n ++ [fresh n]) : cStr (block.take n ++ [fresh n]) = cStr block := by
  obtain ⟨c, hblock, hfront⟩ := exists_split hlength
  by_cases hmem : 0 ∈ block.take n
  · have hvalue : cStr block = cStr (block.take n) := by
      conv_lhs => rw [hblock]
      exact cStr_append hmem [c]
    rw [cStr_append hmem, hvalue]
  · -- without a NUL in front of it, the last byte is the terminator of both
    rw [hblock, List.mem_append, or_iff_right hmem, List.mem_singleton] at h0
    rw [List.mem_append, or_iff_right hmem, List.mem_singleton] at hcopy
    rw [← hcopy, h0, ← hblock]

end Copy

/-- A column without its last byte behind it leaves room for the terminator of its copy, or finds it
in the fresh memory. -/
def Copied (fresh : Nat → UInt8) : Column → Prop
  | .of column => match column.value with
    | .String str => str.val.length < column.m_maxSize ∨ fresh column.m_maxSize = 0
    | _ => True
  | .Float _ => True

/-- What a column comes to against a column like it: 0, but blocks with a value are never compared,
and neither an infinity nor a NaN equals itself. -/
def selfCompare : Column → Except CompareException Int32
  | .of column => match column.value with
    | .ShortBlock _ | .LongBlock _ => if column.m_isNull then .ok 0 else .error .canNotApply
    | _ => .ok 0
  | .Float column =>
    if column.m_isNull || !Float.isSpecial column.m_value then .ok 0 else .ok 1

/-- `copy` is a clone of `i`: it has the flag, the value and the hash of `i`, compares with it as
columns that are alike do, and the setters of one leave the other as it is. -/
structure Faithful (string : Bytes → UInt64) (float : UInt32 → UInt64) (before after : World)
    (i copy : Nat) : Prop where
  equal : ∃ column other, before.view i = some column ∧ after.view i = some column ∧
    after.view copy = some other ∧ other.m_isNull = column.m_isNull ∧
    other.getValue = column.getValue ∧ other.compare column = selfCompare column ∧
    other.hash string float = column.hash string float
  independent : ∀ setters, (after.setAll i setters).view copy = after.view copy ∧
    (after.setAll copy setters).view i = after.view i

theorem strcmp_self (s : Bytes) : strcmp s s = 0 := threeWay_eq_zero.mpr rfl

theorem multiString_compare_self (values : List Bytes) :
    MultiString.do_compare values values = 0 := by
  have hsize : Int32.ofInt ((values.length : Int) - values.length) = 0 := by rw [Int.sub_self]; rfl
  rw [MultiString.do_compare, hsize]
  dsimp only
  rw [if_neg (by simp), MultiString.firstDifference_eq rfl]
  exact threeWay_eq_zero.mpr rfl

theorem compare_self (column : Column) : column.compare column = selfCompare column := by
  cases column with
  | Float column =>
    have hself := Float.do_compare_self column.m_value
    cases hnull : column.m_isNull with
    | true => simp [Column.compare, Float.compare, selfCompare, hnull]
    | false =>
      cases hspecial : Float.isSpecial column.m_value with
      | true => simp [Column.compare, Float.compare, selfCompare, hnull, hspecial, Float.do_compare]
      | false => simp [Column.compare, Float.compare, selfCompare, hnull, hspecial, hself]
  | of column =>
    rw [Column.compare, Abstract.compare, if_neg (by simp)]
    cases hnull : column.m_isNull with
    | true =>
      rw [if_pos (by simp [Abstract.hasValue, hnull]), selfCompare]
      cases hvalue : column.value <;> simp [hnull]
    | false =>
      simp only [Abstract.hasValue, hnull, selfCompare]
      cases hvalue : column.value with
      | String | Integer | ShortBlock | LongBlock | Date | TimeStamp | MultiString =>
        simp [Value.do_compare, Integer.do_compare, Date.do_compare, strcmp_self,
          multiString_compare_self]

namespace World

variable {world : World} {i j : Nat} {fresh : Nat → UInt8}

theorem getElem?_concat {object other : Object} (h : (world.objects ++ [object])[j]? = some other) :
    j ≠ world.objects.length ∧ world.objects[j]? = some other ∨
      j = world.objects.length ∧ other = object := by
  rcases lt_trichotomy j world.objects.length with hlt | rfl | hgt
  · rw [List.getElem?_append_left hlt] at h
    exact .inl ⟨Nat.ne_of_lt hlt, h⟩
  · rw [List.getElem?_concat_length] at h
    exact .inr ⟨rfl, (Option.some.inj h).symm⟩
  · have hlength := (List.getElem?_eq_some_iff.mp h).1
    simp only [List.length_append, List.length_singleton] at hlength
    omega

theorem wellFormed_plain (hwell : WellFormed world) (column : Column) :
    WellFormed { world with objects := world.objects ++ [.plain column] } := by
  refine wellFormed_of_same hwell fun k other hk => ?_
  obtain ⟨-, hold⟩ | ⟨-, hnew⟩ := getElem?_concat hk
  · exact hold
  · cases hnew

theorem block_concat {object : StringObject} (objects : List Object) (block : Bytes)
    (hvalue : object.m_value = world.blocks.length) :
    World.block ⟨objects, world.blocks ++ [block]⟩ object = block := by
  rw [World.block, hvalue, List.getD_eq_getElem?_getD, List.getElem?_concat_length]
  rfl

theorem wellFormed_string (hwell : WellFormed world) {object : StringObject} {block : Bytes}
    (hvalue : object.m_value = world.blocks.length) (hlength : block.length = object.m_maxSize + 1)
    (h0 : 0 ∈ block) :
    WellFormed ⟨world.objects ++ [.String object], world.blocks ++ [block]⟩ := by
  have hblock := block_concat (world.objects ++ [.String object]) block hvalue
  have hblocks : (world.blocks ++ [block]).length = world.blocks.length + 1 := List.length_append
  apply @wellFormed_update world world.objects.length _ object hwell
  · rw [hblocks]
    omega
  · exact fun k other hk => (getElem?_concat hk).symm
  · refine ⟨?_, ?_, ?_⟩
    · rw [hblocks]
      omega
    · rw [hblock, hlength]
    · rw [hblock]
      exact h0
  · intro k other _ hold
    have haddress := (hwell.sound k other hold).address
    exact ⟨by omega, block_append haddress⟩

/-- A new column changes none of the others. -/
theorem view_concat (hwell : WellFormed world) (object : Object) (block : Bytes)
    (hj : j < world.objects.length) :
    World.view ⟨world.objects ++ [object], world.blocks ++ [block]⟩ j = world.view j :=
  view_congr (List.getElem?_append_left hj) fun other hother =>
    block_append (hwell.sound j other hother).address

/-- A clone is a column like the one it is made of, as long as the terminator of a string comes with
it. -/
theorem clone_spec {column : Column} (hwell : WellFormed world)
    (hview : world.view i = some column) (hcopied : Copied fresh column) :
    WellFormed (world.clone i fresh) ∧
      (world.clone i fresh).view world.objects.length = some column ∧
      ∀ j < world.objects.length, (world.clone i fresh).view j = world.view j := by
  cases hobject : world.objects[i]? with
  | none =>
    rw [view, hobject] at hview
    cases hview
  | some object =>
    cases object with
    | plain other =>
      rw [view_plain hobject] at hview
      cases hview
      rw [clone, hobject]
      refine ⟨wellFormed_plain hwell column, view_plain List.getElem?_concat_length, ?_⟩
      exact fun j hj => view_congr (List.getElem?_append_left hj) fun _ _ => rfl
    | String object =>
      have hsound := hwell.sound i object hobject
      rw [view_string hwell hobject] at hview
      cases hview
      have hcopy := (copy_terminated_iff hsound.length).mpr hcopied
      rw [clone, hobject]
      dsimp only
      rw [memcpy_fresh]
      have hlength : ((world.block object).take object.m_maxSize ++ [fresh object.m_maxSize]).length =
          object.m_maxSize + 1 := by
        rw [List.length_append, List.length_take, hsound.length]
        simp
      have hwell' := @wellFormed_string world hwell
        { object with m_value := world.blocks.length } _ rfl hlength hcopy
      refine ⟨hwell', ?_, fun j hj => view_concat hwell _ _ hj⟩
      have hvalue : CString.ofBytes ((world.block object).take object.m_maxSize ++
          [fresh object.m_maxSize]) = CString.ofBytes (world.block object) :=
        Subtype.ext (cStr_copy hsound.length hsound.terminated hcopy)
      rw [view_string hwell' List.getElem?_concat_length, block_concat _ _ rfl]
      simp only [StringObject.column, hvalue]

/-- Where its terminator does not come with it, the clone of a string cannot be read. -/
theorem view_clone_eq_none {object : StringObject} (hwell : WellFormed world)
    (hobject : world.objects[i]? = some (.String object))
    (hcopied : ¬ Copied fresh (.of (object.column (world.block object)))) :
    (world.clone i fresh).view world.objects.length = none := by
  have hsound := hwell.sound i object hobject
  have hcopy := mt (copy_terminated_iff hsound.length).mp hcopied
  rw [clone, hobject]
  dsimp only
  rw [memcpy_fresh, view, List.getElem?_concat_length]
  dsimp only
  rw [block_concat _ _ rfl, if_neg hcopy]

theorem length_clone (hi : i < world.objects.length) (fresh : Nat → UInt8) :
    (world.clone i fresh).objects.length = world.objects.length + 1 := by
  rw [clone, List.getElem?_eq_getElem hi]
  cases world.objects[i] with
  | plain | String => exact List.length_append

theorem lt_of_view {column : Column} (h : world.view i = some column) :
    i < world.objects.length := by
  by_contra hnot
  rw [view, List.getElem?_eq_none (Nat.not_lt.mp hnot)] at h
  cases h

/-- Two columns of a program that are seen alike: what is set in one of them stays there. -/
theorem faithful {string : Bytes → UInt64} {float : UInt32 → UInt64} {after : World} {copy : Nat}
    {column : Column} (hwell : WellFormed after) (hbefore : world.view i = some column)
    (hview : after.view i = some column) (hcopy : after.view copy = some column) (hne : i ≠ copy) :
    Faithful string float world after i copy :=
  ⟨⟨column, column, hbefore, hview, hcopy, rfl, rfl, compare_self column, rfl⟩, fun setters =>
    ⟨view_setAll_of_ne hwell setters hne.symm, view_setAll_of_ne hwell setters hne⟩⟩

end World

end Coffee.Dbms.Clone
