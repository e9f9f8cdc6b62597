import Coffee.Dbms.DatatypeOrder

/-! # Sets of columns

`datatype::Set` compares its columns in the order in which they were inserted and finds their
counterparts by name. Its order is lawful when the sets were built in one order.
-/

namespace Coffee.Dbms

open Coffee.Basis Coffee.Library Library.Comparison

/-- What a set calls on its columns. -/
structure Columns (D : Type) where
  getName : D → CString
  compare : D → D → Except CompareException Int32

def Datatype.columns : Columns Datatype.Abstract := ⟨Datatype.Abstract.m_name, Datatype.Abstract.compare⟩

inductive InsertException where
  | notInitialized | alreadyDefined (name : CString)
deriving DecidableEq, Repr

structure DataSet {D : Type} (columns : Columns D) where
  m_creationOrder : List D
  nodup : (m_creationOrder.map columns.getName).Nodup

namespace DataSet

variable {D : Type} {columns : Columns D} (set other : DataSet columns)

def names : List CString := set.m_creationOrder.map columns.getName

def size : Nat := set.m_creationOrder.length

def empty : DataSet columns := ⟨[], List.nodup_nil⟩

/-- `none` is the null pointer. -/
def insert (data : Option D) : Except InsertException (DataSet columns) :=
  match data with
  | none => .error .notInitialized
  | some data =>
    if h : columns.getName data ∈ set.names then .error (.alreadyDefined (columns.getName data))
    else .ok ⟨set.m_creationOrder ++ [data], by
      rw [List.map_append, List.nodup_append]
      exact ⟨set.nodup, List.nodup_singleton _, fun a ha b hb hab =>
        h (List.mem_singleton.mp hb ▸ hab ▸ ha)⟩⟩

def find (name : CString) : Except CompareException D :=
  match set.m_creationOrder.find? fun data => columns.getName data = name with
  | some data => .ok data
  | none => .error (.notDefined name)

/-- The loop of `compare` from an iterator on. -/
def compareFrom : List D → Except CompareException Int32
  | [] => .ok 0
  | data :: datas => do
    let found ← other.find (columns.getName data)
    let result ← columns.compare data found
    if result ≠ 0 then return result else compareFrom datas

/-- `same` tells whether both are one object. -/
def compare (same : Bool) : Except CompareException Int32 :=
  if same then .ok 0
  else if set.size ≠ other.size then .error (.differentSizes set.size other.size)
  else other.compareFrom set.m_creationOrder

/-- `operator<`, where it returns. -/
def Less : Prop := ∃ result, set.compare other false = .ok result ∧ result < 0

/-- `operator==` of two objects, where it returns. -/
def Equal : Prop := set.compare other false = .ok 0

/-- What ordered containers ask of the sets that they hold. -/
structure Lawful (sets : Set (DataSet columns)) : Prop where
  irrefl : ∀ a ∈ sets, ¬ a.Less a
  asymm : ∀ a ∈ sets, ∀ b ∈ sets, a.Less b → ¬ b.Less a
  trans : ∀ a ∈ sets, ∀ b ∈ sets, ∀ c ∈ sets, a.Less b → b.Less c → a.Less c
  antisymm : ∀ a ∈ sets, ∀ b ∈ sets, ∃ result reverse, a.compare b false = .ok result ∧
    b.compare a false = .ok reverse ∧ result.toInt.sign = -reverse.toInt.sign
  equal_refl : ∀ a ∈ sets, a.Equal a
  equal_symm : ∀ a ∈ sets, ∀ b ∈ sets, a.Equal b → b.Equal a
  equal_trans : ∀ a ∈ sets, ∀ b ∈ sets, ∀ c ∈ sets, a.Equal b → b.Equal c → a.Equal c

end DataSet

namespace Columns

variable {D : Type} (columns : Columns D)

/-- What a comparison returns, as an integer. -/
def result (x y : D) : Int :=
  match columns.compare x y with
  | .ok result => result.toInt
  | .error _ => 0

variable {columns} in
theorem result_of_compare {x y : D} {result : Int32} (h : columns.compare x y = .ok result) :
    columns.result x y = result.toInt := by
  rw [Columns.result, h]

def difference (v w : CString → D) (name : CString) : Int := columns.result (v name) (w name)

/-- `column name` are the columns of a name and its datatype. Their comparison is a total
preorder. -/
structure Lawful (names : List CString) (column : CString → Set D) : Prop where
  getName : ∀ name, ∀ data ∈ column name, columns.getName data = name
  nonempty : ∀ name, ∃ data, data ∈ column name
  returns : ∀ name ∈ names, ∀ x ∈ column name, ∀ y ∈ column name,
    ∃ result, columns.compare x y = .ok result
  preorder : ∀ name ∈ names, TotalPreorder columns.result
    (fun x y => columns.compare x y = .ok 0) (column name)

/-- The columns of a name do not all compare equal. -/
def Matters (column : CString → Set D) (name : CString) : Prop :=
  ∃ x ∈ column name, ∃ y ∈ column name, columns.compare x y ≠ .ok 0

/-- Any two of the orders have the columns that matter in one order. -/
def Agree (column : CString → Set D) (orders : Set (List CString)) : Prop :=
  ∀ order ∈ orders, ∀ order' ∈ orders, ∀ i j, columns.Matters column i →
    columns.Matters column j → [i, j].Sublist order → [i, j].Sublist order'

end Columns

namespace DataSet

variable {D : Type} {columns : Columns D} {names : List CString} {column : CString → Set D}

/-- The set has the given columns, inserted in one of the orders. -/
structure Fits (orders : Set (List CString)) (column : CString → Set D) (set : DataSet columns) :
    Prop where
  order : set.names ∈ orders
  column : ∀ data ∈ set.m_creationOrder, data ∈ column (columns.getName data)

variable {a b : DataSet columns} {v w : CString → D}

/-- `v` gives the column of each name. -/
def Holds (set : DataSet columns) (v : CString → D) : Prop :=
  ∀ data ∈ set.m_creationOrder, v (columns.getName data) = data

theorem Holds.creationOrder (h : a.Holds v) : a.m_creationOrder = a.names.map v := by
  rw [names, List.map_map]
  exact (List.map_id' _).symm.trans (List.map_congr_left fun data hdata => (h data hdata).symm)

theorem find_eq_ok {name : CString} {data : D} (h : a.find name = .ok data) :
    data ∈ a.m_creationOrder ∧ columns.getName data = name := by
  rw [DataSet.find] at h
  split at h
  · rename_i other hother
    obtain rfl := Except.ok.inj h
    exact ⟨List.mem_of_find?_eq_some hother, by simpa using List.find?_some hother⟩
  · cases h

theorem Holds.find (h : a.Holds v) {name : CString} (hname : name ∈ a.names) :
    a.find name = .ok (v name) := by
  obtain ⟨data, hdata, rfl⟩ := List.mem_map.mp hname
  rw [DataSet.find]
  cases hfind : a.m_creationOrder.find? fun other =>
      columns.getName other = columns.getName data with
  | none =>
    have hnone := List.find?_eq_none.mp hfind data hdata
    simp at hnone
  | some other =>
    have hother : columns.getName other = columns.getName data := by
      simpa using List.find?_some hfind
    rw [← hother, h other (List.mem_of_find?_eq_some hfind)]

theorem compareFrom_eq_zero {datas : List D} (h : b.compareFrom datas = .ok 0) :
    ∀ data ∈ datas, ∃ found, b.find (columns.getName data) = .ok found ∧
      columns.compare data found = .ok 0 := by
  induction datas with
  | nil => exact List.forall_mem_nil _
  | cons data datas ih =>
    rw [DataSet.compareFrom] at h
    cases hfind : b.find (columns.getName data) with
    | error exception =>
      rw [hfind] at h
      cases h
    | ok found =>
      cases hresult : columns.compare data found with
      | error exception =>
        simp only [hfind, bind, Except.bind, hresult] at h
        cases h
      | ok result =>
        simp only [hfind, bind, Except.bind, hresult] at h
        split at h
        · rename_i hne
          exact absurd (Except.ok.inj h) hne
        · rename_i heq
          obtain rfl := not_not.mp heq
          exact List.forall_mem_cons.mpr ⟨⟨found, hfind, hresult⟩, ih h⟩

theorem Holds.compareFrom (hb : b.Holds w) {rest : List CString}
    (hnames : ∀ name ∈ rest, name ∈ b.names) (hv : ∀ name ∈ rest, columns.getName (v name) = name)
    (hreturns : ∀ name ∈ rest, ∃ result, columns.compare (v name) (w name) = .ok result) :
    ∃ result, b.compareFrom (rest.map v) = .ok result ∧
      result.toInt = first (columns.difference v w) rest := by
  induction rest with
  | nil => exact ⟨0, rfl, rfl⟩
  | cons name rest ih =>
    obtain ⟨hname, hnames⟩ := List.forall_mem_cons.mp hnames
    obtain ⟨hvname, hv⟩ := List.forall_mem_cons.mp hv
    obtain ⟨⟨result, hresult⟩, hreturns⟩ := List.forall_mem_cons.mp hreturns
    obtain ⟨later, hlater, hfirst⟩ := ih hnames hv hreturns
    have hint : columns.difference v w name = result.toInt := Columns.result_of_compare hresult
    rw [List.map_cons, DataSet.compareFrom, hvname, hb.find hname]
    simp only [bind, Except.bind, hresult]
    rcases Decidable.em (result = 0) with rfl | hne
    · rw [first_of_zero hint]
      exact ⟨later, by simpa using hlater, hfirst⟩
    · have hne' : columns.difference v w name ≠ 0 := by
        rw [hint]
        exact fun hzero => hne (Int32.toInt_inj.mp hzero)
      rw [first_of_ne hne', if_pos hne]
      exact ⟨result, rfl, hint.symm⟩

theorem Holds.compare (ha : a.Holds v) (hb : b.Holds w) (hperm : a.names.Perm b.names)
    (hreturns : ∀ name ∈ a.names, ∃ result, columns.compare (v name) (w name) = .ok result) :
    ∃ result, a.compare b false = .ok result ∧
      result.toInt = first (columns.difference v w) a.names := by
  have hsize : a.size = b.size := by
    simpa [names, size] using hperm.length_eq
  have hv : ∀ name ∈ a.names, columns.getName (v name) = name := by
    intro name hname
    obtain ⟨data, hdata, rfl⟩ := List.mem_map.mp hname
    rw [ha data hdata]
  rw [DataSet.compare, if_neg (by simp), if_neg (by simp [hsize]), ha.creationOrder]
  exact hb.compareFrom (fun name hname => hperm.mem_iff.mp hname) hv hreturns

/-- What `compare` of two objects returns, as an integer. -/
def order (set other : DataSet columns) : Int :=
  match set.compare other false with
  | .ok result => result.toInt
  | .error _ => 0

section Order

variable {result : Int32}

theorem order_of_compare (h : a.compare b false = .ok result) : a.order b = result.toInt := by
  rw [order, h]

theorem less_iff (h : a.compare b false = .ok result) : a.Less b ↔ a.order b < 0 := by
  rw [order_of_compare h, Less]
  constructor
  · rintro ⟨result', hresult', hneg⟩
    obtain rfl := Except.ok.inj (h.symm.trans hresult')
    exact Int32.lt_iff_toInt_lt.mp hneg
  · intro hneg
    exact ⟨result, h, Int32.lt_iff_toInt_lt.mpr hneg⟩

theorem equal_iff (h : a.compare b false = .ok result) : a.Equal b ↔ a.order b = 0 := by
  rw [order_of_compare h, Equal, h, Except.ok.injEq, ← Int32.toInt_inj]
  rfl

end Order

theorem lawful_of_totalPreorder {sets : Set (DataSet columns)}
    (hreturns : ∀ a ∈ sets, ∀ b ∈ sets, ∃ result, a.compare b false = .ok result)
    (h : TotalPreorder order Equal sets) : Lawful sets := by
  have hless : ∀ a ∈ sets, ∀ b ∈ sets, a.Less b ↔ a.order b < 0 := fun a ha b hb =>
    less_iff (hreturns a ha b hb).choose_spec
  refine ⟨?_, ?_, ?_, ?_, ?_, ?_, ?_⟩
  · intro a ha hlt
    have hzero := h.refl ha
    rw [hless a ha a ha] at hlt
    omega
  · intro a ha b hb hlt hgt
    rw [hless a ha b hb] at hlt
    rw [hless b hb a ha] at hgt
    have hpos := (h.neg_iff ha hb).mp hlt
    omega
  · intro a ha b hb c hc hab hbc
    rw [hless a ha b hb] at hab
    rw [hless b hb c hc] at hbc
    rw [hless a ha c hc]
    exact h.trans_of_lt_of_le ha hb hc hab (Int.le_of_lt hbc)
  · intro a ha b hb
    obtain ⟨result, hresult⟩ := hreturns a ha b hb
    obtain ⟨reverse, hreverse⟩ := hreturns b hb a ha
    refine ⟨result, reverse, hresult, hreverse, ?_⟩
    rw [← order_of_compare hresult, ← order_of_compare hreverse]
    exact h.antisymm a ha b hb
  · intro a ha
    exact (h.zero a ha a ha).mp (h.refl ha)
  · intro a ha b hb heq
    rw [← h.zero a ha b hb] at heq
    exact (h.zero b hb a ha).mp ((h.zero_iff ha hb).mp heq)
  · intro a ha b hb c hc hab hbc
    rw [← h.zero a ha b hb] at hab
    rw [← h.zero b hb c hc] at hbc
    exact (h.zero a ha c hc).mp (h.trans_zero ha hb hc hab hbc)

section Orders

variable {orders : Set (List CString)}

theorem Fits.exists_holds (hlawful : columns.Lawful names column) (h : Fits orders column a) :
    ∃ v, a.Holds v ∧ ∀ name, v name ∈ column name := by
  let found name := a.m_creationOrder.find? fun data => columns.getName data = name
  let v name := (found name).getD (hlawful.nonempty name).choose
  have hfound : ∀ name data, found name = some data →
      data ∈ a.m_creationOrder ∧ columns.getName data = name := fun name data hdata =>
    ⟨List.mem_of_find?_eq_some hdata, by simpa using List.find?_some hdata⟩
  refine ⟨v, ?_, ?_⟩
  · intro data hdata
    cases hcase : found (columns.getName data) with
    | none =>
      have hnone := List.find?_eq_none.mp hcase data hdata
      simp at hnone
    | some other =>
      obtain ⟨hother, hname⟩ := hfound _ _ hcase
      have hv : v (columns.getName data) = other := by simp [v, hcase]
      rw [hv]
      exact List.inj_on_of_nodup_map a.nodup hother hdata hname
  · intro name
    cases hcase : found name with
    | none =>
      have hv : v name = (hlawful.nonempty name).choose := by simp [v, hcase]
      rw [hv]
      exact (hlawful.nonempty name).choose_spec
    | some data =>
      obtain ⟨hdata, rfl⟩ := hfound _ _ hcase
      have hv : v (columns.getName data) = data := by simp [v, hcase]
      rw [hv]
      exact h.column data hdata

variable (hlawful : columns.Lawful names column) (horders : ∀ order ∈ orders, order.Perm names)

include hlawful horders

/-- Along one of the orders, `compare` of any two sets is the lexicographic comparison. -/
theorem Fits.compare (hagree : columns.Agree column orders) (ha : Fits orders column a)
    (hb : Fits orders column b) (hv : a.Holds v) (hw : b.Holds w)
    (hcolumn : ∀ name, v name ∈ column name) (hcolumn' : ∀ name, w name ∈ column name)
    {along : List CString} (halong : along ∈ orders) :
    (∃ result, a.compare b false = .ok result) ∧
      a.order b = first (columns.difference v w) along := by
  have hperm := horders a.names ha.order
  have hreturns : ∀ name ∈ a.names, ∃ result, columns.compare (v name) (w name) = .ok result :=
    fun name hname => hlawful.returns name (hperm.mem_iff.mp hname) _ (hcolumn name) _
      (hcolumn' name)
  obtain ⟨result, hresult, hfirst⟩ :=
    hv.compare hw (hperm.trans (horders b.names hb.order).symm) hreturns
  have hmatters : ∀ name, columns.difference v w name ≠ 0 → columns.Matters column name := by
    intro name hne
    refine ⟨v name, hcolumn name, w name, hcolumn' name, fun heq => hne ?_⟩
    rw [Columns.difference, Columns.result, heq]
    rfl
  refine ⟨⟨result, hresult⟩, (order_of_compare hresult).trans (hfirst.trans ?_)⟩
  refine first_eq_of_sublist (hperm.trans (horders along halong).symm) ?_ ?_
  · exact ((horders along halong).trans hperm.symm).nodup_iff.mpr a.nodup
  · intro i j hi hj hsublist
    exact hagree a.names ha.order along halong i j (hmatters i hi) (hmatters j hj) hsublist

theorem lawful_of_agree (hagree : columns.Agree column orders) :
    Lawful {set : DataSet columns | Fits orders column set} := by
  have hpreorder : ∀ along ∈ orders, ∀ name ∈ along, TotalPreorder columns.result
      (fun x y => columns.compare x y = .ok 0) (column name) := fun along halong name hname =>
    hlawful.preorder name ((horders along halong).mem_iff.mp hname)
  refine lawful_of_totalPreorder ?_ ⟨?_, ?_, ?_⟩
  · intro a ha b hb
    obtain ⟨v, hv, hcolumn⟩ := ha.exists_holds hlawful
    obtain ⟨w, hw, hcolumn'⟩ := hb.exists_holds hlawful
    exact (ha.compare hlawful horders hagree hb hv hw hcolumn hcolumn' ha.order).1
  · intro a ha b hb
    obtain ⟨v, hv, hcolumn⟩ := ha.exists_holds hlawful
    obtain ⟨w, hw, hcolumn'⟩ := hb.exists_holds hlawful
    rw [(ha.compare hlawful horders hagree hb hv hw hcolumn hcolumn' ha.order).2,
      (hb.compare hlawful horders hagree ha hw hv hcolumn' hcolumn ha.order).2]
    exact (TotalPreorder.lexicographic (hpreorder a.names ha.order)).antisymm v
      (fun name _ => hcolumn name) w (fun name _ => hcolumn' name)
  · intro a ha b hb c hc
    obtain ⟨v, hv, hcolumn⟩ := ha.exists_holds hlawful
    obtain ⟨w, hw, hcolumn'⟩ := hb.exists_holds hlawful
    obtain ⟨u, hu, hcolumn''⟩ := hc.exists_holds hlawful
    rw [(ha.compare hlawful horders hagree hb hv hw hcolumn hcolumn' ha.order).2,
      (hb.compare hlawful horders hagree hc hw hu hcolumn' hcolumn'' ha.order).2,
      (ha.compare hlawful horders hagree hc hv hu hcolumn hcolumn'' ha.order).2]
    exact (TotalPreorder.lexicographic (hpreorder a.names ha.order)).trans v
      (fun name _ => hcolumn name) w (fun name _ => hcolumn' name) u (fun name _ => hcolumn'' name)
  · intro a ha b hb
    obtain ⟨v, hv, hcolumn⟩ := ha.exists_holds hlawful
    obtain ⟨w, hw, hcolumn'⟩ := hb.exists_holds hlawful
    obtain ⟨result, hresult⟩ :=
      (ha.compare hlawful horders hagree hb hv hw hcolumn hcolumn' ha.order).1
    exact (equal_iff hresult).symm

omit horders in
/-- A set with the columns that `v` gives, inserted in an order. -/
theorem exists_fits {along : List CString} (halong : along ∈ orders) (hnodup : along.Nodup)
    (hcolumn : ∀ name, v name ∈ column name) :
    ∃ set : DataSet columns, Fits orders column set ∧ set.Holds v ∧ set.names = along := by
  have hname : ∀ name, columns.getName (v name) = name := fun name =>
    hlawful.getName name _ (hcolumn name)
  have hnames : (along.map v).map columns.getName = along := by
    rw [List.map_map]
    exact (List.map_congr_left fun name _ => hname name).trans (List.map_id' along)
  refine ⟨⟨along.map v, hnames.symm ▸ hnodup⟩, ⟨?_, ?_⟩, ?_, hnames⟩
  · change (along.map v).map columns.getName ∈ orders
    rw [hnames]
    exact halong
  · intro data hdata
    obtain ⟨name, -, rfl⟩ := List.mem_map.mp hdata
    exact (hname name).symm ▸ hcolumn name
  · intro data hdata
    obtain ⟨name, -, rfl⟩ := List.mem_map.mp hdata
    rw [hname name]

omit horders in
theorem exists_lt {name : CString} (hname : name ∈ names) (h : columns.Matters column name) :
    ∃ x ∈ column name, ∃ y ∈ column name, columns.result x y < 0 := by
  obtain ⟨x, hx, y, hy, hne⟩ := h
  have hpreorder := hlawful.preorder name hname
  rcases Int.lt_trichotomy (columns.result x y) 0 with hlt | hzero | hgt
  · exact ⟨x, hx, y, hy, hlt⟩
  · exact absurd ((hpreorder.zero x hx y hy).mp hzero) hne
  · exact ⟨y, hy, x, hx, (hpreorder.neg_iff hy hx).mpr hgt⟩

/-- Sets that only differ in two columns are ordered by the one that comes first. -/
theorem less_of_first (ha : Fits orders column a) (hb : Fits orders column b) (hv : a.Holds v)
    (hw : b.Holds w) (hcolumn : ∀ name, v name ∈ column name)
    (hcolumn' : ∀ name, w name ∈ column name) {i j : CString} (hij : [i, j].Sublist a.names)
    (hothers : ∀ name, name ≠ i → name ≠ j → v name = w name)
    (hless : columns.result (v i) (w i) < 0) : a.Less b := by
  have hperm := horders a.names ha.order
  obtain ⟨result, hresult, hfirst⟩ := hv.compare hw
    (hperm.trans (horders b.names hb.order).symm) fun name hname =>
      hlawful.returns name (hperm.mem_iff.mp hname) _ (hcolumn name) _ (hcolumn' name)
  refine ⟨result, hresult, Int32.lt_iff_toInt_lt.mpr ?_⟩
  have hnodup := a.nodup
  change a.names.Nodup at hnodup
  obtain ⟨pre, post, hsplit⟩ := List.append_of_mem (hij.subset List.mem_cons_self)
  rw [hsplit] at hij hnodup hperm
  have hj := mem_behind_of_sublist hij hnodup
  have hpre : ∀ name ∈ pre, columns.difference v w name = 0 := by
    intro name hname
    have hdisjoint := (List.nodup_append.mp hnodup).2.2 name hname
    have hsame := hothers name (hdisjoint i List.mem_cons_self)
      (hdisjoint j (List.mem_cons_of_mem i hj))
    rw [Columns.difference, ← hsame]
    exact (hlawful.preorder name (hperm.mem_iff.mp (List.mem_append_left _ hname))).refl
      (hcolumn name)
  have hne : columns.difference v w i ≠ 0 := Int.ne_of_lt hless
  rw [hfirst, hsplit, first_append hpre hne]
  exact hless

theorem agree_of_lawful (hnodup : names.Nodup)
    (h : Lawful {set : DataSet columns | Fits orders column set}) :
    columns.Agree column orders := by
  intro order horder order' horder' i j hi hj hij
  have hperm := horders order horder
  have hperm' := horders order' horder'
  have himem := hperm.mem_iff.mp (hij.subset List.mem_cons_self)
  have hjmem := hperm.mem_iff.mp (hij.subset (List.mem_cons_of_mem i List.mem_cons_self))
  have hne : i ≠ j := by
    have hpair := hij.nodup (hperm.nodup_iff.mpr hnodup)
    simpa using hpair
  rcases sublist_or_sublist (hperm'.mem_iff.mpr himem) (hperm'.mem_iff.mpr hjmem) hne with
    hsame | hswapped
  · exact hsame
  -- the sets differ in `i` and `j` only, and each is below the other in the column it lists first
  obtain ⟨xi, hxi, yi, hyi, hlti⟩ := exists_lt hlawful himem hi
  obtain ⟨xj, hxj, yj, hyj, hltj⟩ := exists_lt hlawful hjmem hj
  let base name := (hlawful.nonempty name).choose
  have hbase : ∀ name, base name ∈ column name := fun name => (hlawful.nonempty name).choose_spec
  let pick x y := Function.update (Function.update base i x) j y
  have hpick : ∀ x ∈ column i, ∀ y ∈ column j, ∀ name, pick x y name ∈ column name := by
    intro x hx y hy name
    rcases Decidable.em (name = j) with rfl | hnej
    · simpa [pick] using hy
    · rcases Decidable.em (name = i) with rfl | hnei
      · simpa [pick, hnej] using hx
      · simpa [pick, hnei, hnej] using hbase name
  have hothers : ∀ x y x' y' name, name ≠ i → name ≠ j → pick x y name = pick x' y' name := by
    intro x y x' y' name hnei hnej
    simp [pick, hnei, hnej]
  obtain ⟨a, ha, hv, rfl⟩ := exists_fits hlawful horder (hperm.nodup_iff.mpr hnodup)
    (hpick xi hxi yj hyj)
  obtain ⟨b, hb, hw, rfl⟩ := exists_fits hlawful horder' (hperm'.nodup_iff.mpr hnodup)
    (hpick yi hyi xj hxj)
  have hab : a.Less b := less_of_first hlawful horders ha hb hv hw (hpick xi hxi yj hyj)
    (hpick yi hyi xj hxj) hij (hothers _ _ _ _) (by simpa [pick, hne] using hlti)
  have hba : b.Less a := less_of_first hlawful horders hb ha hw hv (hpick yi hyi xj hxj)
    (hpick xi hxi yj hyj) hswapped (fun name hnej hnei => hothers _ _ _ _ name hnei hnej)
    (by simpa [pick] using hltj)
  exact absurd hba (h.asymm a ha b hb hab)

/-- Sets are ordered lawfully exactly when their insertion orders agree on the columns that
matter. -/
theorem lawful_iff_agree (hnodup : names.Nodup) :
    Lawful {set : DataSet columns | Fits orders column set} ↔ columns.Agree column orders :=
  ⟨agree_of_lawful hlawful horders hnodup, lawful_of_agree hlawful horders⟩

end Orders

/-- A set is what the inserts of its columns leave. -/
theorem foldlM_insert (set : DataSet columns) :
    set.m_creationOrder.foldlM (fun set data => set.insert (some data)) empty = .ok set := by
  obtain ⟨datas, hnodup⟩ := set
  suffices h : ∀ rest (front : DataSet columns),
      (((front.m_creationOrder ++ rest).map columns.getName).Nodup) →
      ∃ set, rest.foldlM (fun set data => set.insert (some data)) front = .ok set ∧
        set.m_creationOrder = front.m_creationOrder ++ rest by
    obtain ⟨set, hset, horder⟩ := h datas empty hnodup
    rw [hset]
    obtain ⟨creationOrder, _⟩ := set
    obtain rfl : creationOrder = datas := horder
    rfl
  intro rest
  induction rest with
  | nil => exact fun front _ => ⟨front, rfl, (List.append_nil _).symm⟩
  | cons data rest ih =>
    intro front hnodup
    have hnew : columns.getName data ∉ front.names := by
      intro hmem
      rw [List.map_append, List.nodup_append] at hnodup
      exact hnodup.2.2 _ hmem _ List.mem_cons_self rfl
    rw [List.append_cons] at hnodup
    have hfront : ((front.m_creationOrder ++ [data]).map columns.getName).Nodup := by
      rw [List.map_append] at hnodup
      exact hnodup.of_append_left
    obtain ⟨set, hset, horder⟩ := ih ⟨front.m_creationOrder ++ [data], hfront⟩ hnodup
    refine ⟨set, ?_, horder.trans (List.append_cons ..).symm⟩
    rw [List.foldlM_cons, insert, dif_neg hnew]
    exact hset

end DataSet

namespace Datatype

open Abstract

theorem columns_lawful {names : List CString} {column : CString → Set Abstract}
    (hname : ∀ name, ∀ data ∈ column name, data.m_name = name)
    (hnonempty : ∀ name, ∃ data, data ∈ column name)
    (hlawful : ∀ name ∈ names, Abstract.Lawful (column name)) :
    columns.Lawful names column where
  getName := hname
  nonempty := hnonempty
  returns name hmem x hx y hy := by
    obtain ⟨result, -, hresult, -⟩ := (hlawful name hmem).antisymm x hx y hy
    exact ⟨result, hresult⟩
  preorder name hmem := by
    have h := hlawful name hmem
    refine ⟨?_, ?_, ?_⟩
    · intro x hx y hy
      obtain ⟨result, reverse, hresult, hreverse, hsign⟩ := h.antisymm x hx y hy
      rw [Columns.result_of_compare hresult, Columns.result_of_compare hreverse]
      exact hsign
    · intro x hx y hy z hz hxy hyz
      obtain ⟨xy, -, hcompareXY, -⟩ := h.antisymm x hx y hy
      obtain ⟨yz, -, hcompareYZ, -⟩ := h.antisymm y hy z hz
      obtain ⟨xz, -, hcompareXZ, -⟩ := h.antisymm x hx z hz
      rw [Columns.result_of_compare hcompareXY] at hxy
      rw [Columns.result_of_compare hcompareYZ] at hyz
      rw [Columns.result_of_compare hcompareXZ]
      exact le_zero_iff.mp (h.trans x hx y hy z hz xy yz xz hcompareXY hcompareYZ hcompareXZ
        (le_zero_iff.mpr hxy) (le_zero_iff.mpr hyz))
    · intro x hx y hy
      obtain ⟨result, -, hresult, -⟩ := h.antisymm x hx y hy
      have hcompare : columns.compare x y = .ok result := hresult
      rw [Columns.result_of_compare hcompare, hcompare, Except.ok.injEq, ← Int32.toInt_inj]
      rfl

/-- Integer columns without negative values, one for each name. -/
def naturalColumn (name : CString) : Set Abstract := {column ∈ naturals | column.m_name = name}

theorem naturalColumn_lawful (names : List CString) : columns.Lawful names naturalColumn := by
  refine columns_lawful (fun name data hdata => hdata.2) (fun name => ?_) fun name _ => ?_
  · exact ⟨⟨name, 4, .CanNotBeNull, false, .Integer 0⟩, ⟨0, by decide, rfl⟩, rfl⟩
  · have hlawful : Abstract.Lawful naturals :=
      (lawful_iff_totalPreorder (by decide) (by decide) type_of_mem_naturals).mpr
        (totalPreorder_shown_iff.mpr separated_naturals)
    exact hlawful.mono fun _ h => h.1

end Datatype

namespace DataSet

open Datatype

theorem zero_not_mem_id : 0 ∉ text "id" := by decide

def id : CString := ⟨text "id", zero_not_mem_id⟩

def code : CString := ⟨text "code", by decide⟩

def natural (name : CString) (i : Int32) : Abstract := ⟨name, 4, .CanNotBeNull, false, .Integer i⟩

theorem natural_mem (name : CString) {i : Int32} (h : 0 ≤ i.toInt) :
    natural name i ∈ naturalColumn name := ⟨⟨i, h, rfl⟩, rfl⟩

/-- Two keys whose columns were inserted in opposite orders are each below the other. -/
theorem not_lawful_two_orders : ¬ ∀ (column : CString → Set Abstract) (names : List CString)
    (orders : Set (List CString)), Datatype.columns.Lawful names column → names.Nodup →
      (∀ order ∈ orders, order.Perm names) →
      Lawful {set : DataSet Datatype.columns | Fits orders column set} := by
  intro h
  have hlawful := h naturalColumn [id, code] {order | order.Perm [id, code]}
    (naturalColumn_lawful _) (by decide) fun _ horder => horder
  let a : DataSet Datatype.columns := ⟨[natural id 1, natural code 2], by decide⟩
  let b : DataSet Datatype.columns := ⟨[natural code 1, natural id 2], by decide⟩
  have ha : Fits {order | order.Perm [id, code]} naturalColumn a := by
    refine ⟨List.Perm.refl _, List.forall_mem_cons.mpr ⟨?_, List.forall_mem_singleton.mpr ?_⟩⟩
    · exact natural_mem id (by decide)
    · exact natural_mem code (by decide)
  have hb : Fits {order | order.Perm [id, code]} naturalColumn b := by
    refine ⟨List.Perm.swap id code [],
      List.forall_mem_cons.mpr ⟨?_, List.forall_mem_singleton.mpr ?_⟩⟩
    · exact natural_mem code (by decide)
    · exact natural_mem id (by decide)
  exact hlawful.asymm a ha b hb ⟨-1, rfl, by decide⟩ ⟨-1, rfl, by decide⟩

theorem lawful_one_order : Lawful {set : DataSet Datatype.columns |
    Fits {order | order = [id, code]} naturalColumn set} := by
  have hperm : ∀ order ∈ {order | order = [id, code]}, order.Perm [id, code] := by
    rintro order rfl
    exact List.Perm.refl _
  refine (lawful_iff_agree (naturalColumn_lawful [id, code]) hperm (by decide)).mpr ?_
  rintro order rfl order' rfl i j _ _ hsublist
  exact hsublist

end DataSet

end Coffee.Dbms
