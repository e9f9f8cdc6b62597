import Coffee.Dbms.DataSet
import Coffee.Library.Mix

/-! # The hash of a primary key

`PrimaryKey::hash` mixes the codes of what the columns store, and the equality of keys compares what
they show. Both agree for all keys over given columns just where the columns that compare equal
store values that no hash tells apart.
-/

namespace Coffee.Dbms.DataSet

variable {D : Type} {columns : Columns D} {key other : DataSet columns}

/-- The column of the other set with the name of a column. -/
def partner (other : DataSet columns) (data : D) : D :=
  match other.find (columns.getName data) with
  | .ok found => found
  | .error _ => data

/-- What the columns of sets that compare equal have to do with each other. -/
theorem partner_of_equal (h : key.Equal other) : key.size = other.size ∧
    ∀ data ∈ key.m_creationOrder, other.partner data ∈ other.m_creationOrder ∧
      columns.getName (other.partner data) = columns.getName data ∧
      columns.compare data (other.partner data) = .ok 0 := by
  rw [DataSet.Equal, DataSet.compare, if_neg (by simp)] at h
  split at h
  · cases h
  · rename_i hsize
    refine ⟨not_not.mp hsize, fun data hdata => ?_⟩
    obtain ⟨found, hfound, hcompare⟩ := DataSet.compareFrom_eq_zero h data hdata
    have hpartner : other.partner data = found := by
      rw [partner, show other.find (columns.getName data) = .ok found from hfound]
    obtain ⟨hmem, hname⟩ := DataSet.find_eq_ok hfound
    rw [hpartner]
    exact ⟨hmem, hname, hcompare⟩

theorem perm_of_equal (h : key.Equal other) :
    (key.m_creationOrder.map other.partner).Perm other.m_creationOrder := by
  obtain ⟨hsize, hpartner⟩ := partner_of_equal h
  have hnames : (key.m_creationOrder.map other.partner).map columns.getName =
      key.m_creationOrder.map columns.getName := by
    rw [List.map_map]
    exact List.map_congr_left fun data hdata => (hpartner data hdata).2.1
  have hnodup : (key.m_creationOrder.map other.partner).Nodup :=
    List.Nodup.of_map columns.getName (hnames ▸ key.nodup)
  have hsubset : key.m_creationOrder.map other.partner ⊆ other.m_creationOrder := by
    intro data hdata
    obtain ⟨own, hown, rfl⟩ := List.mem_map.mp hdata
    exact (hpartner own hown).1
  refine (List.subperm_of_subset hnodup hsubset).perm_of_length_le ?_
  rw [List.length_map]
  exact Nat.le_of_eq hsize.symm

variable {data : D} {datas : List D}

theorem find_of_mem (h : data ∈ other.m_creationOrder) :
    other.find (columns.getName data) = .ok data := by
  rw [DataSet.find]
  cases hfind : other.m_creationOrder.find? fun found =>
      columns.getName found = columns.getName data with
  | none =>
    have hnone := List.find?_eq_none.mp hfind data h
    simp at hnone
  | some found =>
    have hname : columns.getName found = columns.getName data := by
      simpa using List.find?_some hfind
    rw [List.inj_on_of_nodup_map other.nodup (List.mem_of_find?_eq_some hfind) h hname]

theorem compareFrom_of_equal
    (h : ∀ data ∈ datas, ∃ found, other.find (columns.getName data) = .ok found ∧
      columns.compare data found = .ok 0) : other.compareFrom datas = .ok 0 := by
  induction datas with
  | nil => rfl
  | cons data datas ih =>
    obtain ⟨⟨found, hfound, hcompare⟩, hdatas⟩ := List.forall_mem_cons.mp h
    simp only [DataSet.compareFrom, hfound, bind, Except.bind, hcompare]
    exact ih hdatas

end Coffee.Dbms.DataSet

namespace Coffee.Persistence

open Coffee.Basis Coffee.Dbms Coffee.Dbms.Datatype Coffee.Library Mix

abbrev ThePrimaryKey := DataSet Datatype.columns

namespace ThePrimaryKey

variable (string : Bytes → UInt64)

def code (data : Abstract) : UInt64 := data.hash string <<< 1

/-- The elements of the hash map come in an order of its own, which does not matter. -/
def hash (key : ThePrimaryKey) : UInt64 :=
  key.m_creationOrder.foldl (fun result data => result ^^^ code string data)
    (UInt64.ofNat key.size)

theorem hash_eq (key : ThePrimaryKey) :
    key.hash string = UInt64.ofNat key.size ^^^ mix (key.m_creationOrder.map (code string)) := by
  rw [← foldl_xor, List.foldl_map]
  rfl

variable {key other : ThePrimaryKey}

theorem hash_eq_of_code {string : Bytes → UInt64} (h : key.Equal other)
    (hcode : ∀ data ∈ key.m_creationOrder, code string data = code string (other.partner data)) :
    key.hash string = other.hash string := by
  have hother : mix (key.m_creationOrder.map (code string)) =
      mix (other.m_creationOrder.map (code string)) := by
    rw [← mix_perm ((DataSet.perm_of_equal h).map (code string)), List.map_map]
    exact congrArg mix (List.map_congr_left hcode)
  rw [hash_eq, hash_eq, (DataSet.partner_of_equal h).1, hother]

/-- Stored values that every hash of strings takes for the same. -/
def Alike : Value → Value → Prop
  | .Integer a, .Integer b => a = b
  | .String a, .String b => a = b
  | .ShortBlock a, .ShortBlock b => a.length % 2 ^ 63 = b.length % 2 ^ 63
  | .LongBlock a, .LongBlock b => a.length % 2 ^ 63 = b.length % 2 ^ 63
  | .Date s, .Date t => s.toInt % 2 ^ 63 = t.toInt % 2 ^ 63
  | .TimeStamp s, .TimeStamp t => s.toInt % 2 ^ 63 = t.toInt % 2 ^ 63
  | .MultiString values, .MultiString other =>
    values.length % 2 ^ 63 = other.length % 2 ^ 63 ∧
      ∀ value, values.count value % 2 = other.count value % 2
  | _, _ => False

section Shift

theorem shiftLeft_eq_iff {a b : UInt64} :
    a <<< 1 = b <<< 1 ↔ a.toNat % 2 ^ 63 = b.toNat % 2 ^ 63 := by
  rw [← UInt64.toNat_inj]
  simp only [UInt64.toNat_shiftLeft, Nat.shiftLeft_eq]
  have hone : (1 : UInt64).toNat % 64 = 1 := by decide
  rw [hone]
  omega

theorem toNat_toUInt64 (s : Int64) : (s.toUInt64.toNat : Int) = s.toInt % 2 ^ 64 := by
  have hcond : s.toInt = if 2 * s.toUInt64.toNat < 2 ^ 64 then (s.toUInt64.toNat : Int)
      else s.toUInt64.toNat - (2 ^ 64 : Nat) := BitVec.toInt_eq_toNat_cond s.toBitVec
  have hlt := s.toUInt64.toNat_lt
  omega

theorem shiftLeft_toUInt64_iff {s t : Int64} :
    s.toUInt64 <<< 1 = t.toUInt64 <<< 1 ↔ s.toInt % 2 ^ 63 = t.toInt % 2 ^ 63 := by
  have hs := toNat_toUInt64 s
  have ht := toNat_toUInt64 t
  rw [shiftLeft_eq_iff]
  omega

theorem shiftLeft_toInt64_iff {a b : Int32} :
    a.toInt64.toUInt64 <<< 1 = b.toInt64.toUInt64 <<< 1 ↔ a = b := by
  refine ⟨fun h => ?_, fun h => by rw [h]⟩
  rw [shiftLeft_toUInt64_iff, Int32.toInt_toInt64, Int32.toInt_toInt64] at h
  have ha := a.toInt_lt
  have ha' := a.le_toInt
  have hb := b.toInt_lt
  have hb' := b.le_toInt
  exact Int32.toInt_inj.mp (by omega)

theorem shiftLeft_ofNat_iff {m n : Nat} :
    UInt64.ofNat m <<< 1 = UInt64.ofNat n <<< 1 ↔ m % 2 ^ 63 = n % 2 ^ 63 := by
  rw [shiftLeft_eq_iff, UInt64.toNat_ofNat', UInt64.toNat_ofNat']
  omega

end Shift

/-- The code of a multi string mixes its length with the codes of its values. -/
theorem hash_multiString (values : List Bytes) :
    (Value.MultiString values).hash string =
      UInt64.ofNat values.length ^^^ mix (values.map string) := by
  rw [Value.hash, ← foldl_xor, List.foldl_map]

theorem forall_hash_multiString_iff {values other : List Bytes} :
    (∀ string, (Value.MultiString values).hash string <<< 1 =
      (Value.MultiString other).hash string <<< 1) ↔
    Alike (.MultiString values) (.MultiString other) := by
  simp only [hash_multiString, UInt64.shiftLeft_xor, Alike]
  constructor
  · intro h
    have hzero : ∀ values : List Bytes, mix (values.map fun _ => 0) = 0 := by
      intro values
      induction values with
      | nil => rfl
      | cons value values ih => rw [List.map_cons, mix_cons, ih, UInt64.xor_zero]
    have hlength := h fun _ => 0
    rw [hzero, hzero, UInt64.xor_left_inj] at hlength
    refine ⟨shiftLeft_ofNat_iff.mp hlength, fun value => ?_⟩
    have hvalue := h fun other => if other == value then 1 else 0
    rw [hlength, UInt64.xor_right_inj, mix_indicator, mix_indicator] at hvalue
    split at hvalue <;> split at hvalue
    · omega
    · cases hvalue
    · cases hvalue
    · omega
  · rintro ⟨hlength, hcount⟩ string
    rw [shiftLeft_ofNat_iff.mpr hlength, forall_mix_eq_iff.mpr hcount string]

/-- Values of one datatype have the same code, whatever strings are hashed to, just where they are
alike. -/
theorem forall_code_eq_iff {x y : Value} (htype : x.getType = y.getType) :
    (∀ string, x.hash string <<< 1 = y.hash string <<< 1) ↔ Alike x y := by
  cases x <;> cases y <;> try cases htype
  case Integer.Integer a b => exact (forall_const _).trans shiftLeft_toInt64_iff
  case String.String a b =>
    refine ⟨fun h => ?_, fun h _ => by rw [h]⟩
    have hsame := h fun s => if s = a.val then 1 else 0
    simp only [Value.hash, if_true] at hsame
    split at hsame
    · next hvalue => exact Subtype.ext hvalue.symm
    · cases hsame
  case ShortBlock.ShortBlock a b => exact (forall_const _).trans shiftLeft_ofNat_iff
  case LongBlock.LongBlock a b => exact (forall_const _).trans shiftLeft_ofNat_iff
  case Date.Date s t => exact (forall_const _).trans shiftLeft_toUInt64_iff
  case TimeStamp.TimeStamp s t => exact (forall_const _).trans shiftLeft_toUInt64_iff
  case MultiString.MultiString values other => exact forall_hash_multiString_iff

theorem getType_of_compare {x y : Abstract} {result : Int32} (h : x.compare y = .ok result) :
    x.value.getType = y.value.getType := by
  unfold Abstract.compare at h
  split at h
  · cases h
  · rename_i htype
    exact not_not.mp htype

/-- The key of one column. -/
def single (data : Abstract) : ThePrimaryKey := ⟨[data], List.nodup_singleton _⟩

theorem equal_single {x y : Abstract} (hname : x.m_name = y.m_name) (h : x.compare y = .ok 0) :
    (single x).Equal (single y) := by
  rw [DataSet.Equal, DataSet.compare, if_neg (by simp), if_neg (by simp [single, DataSet.size])]
  refine DataSet.compareFrom_of_equal fun data hdata => ⟨y, ?_, ?_⟩
  all_goals rw [List.mem_singleton.mp hdata]
  · have hmem : y ∈ (single y).m_creationOrder := List.mem_singleton_self y
    exact (congrArg (single y).find hname).trans (DataSet.find_of_mem hmem)
  · exact h

theorem hash_single (data : Abstract) :
    (single data).hash string = UInt64.ofNat 1 ^^^ code string data := by
  rw [hash_eq]
  exact congrArg (UInt64.ofNat 1 ^^^ ·) UInt64.xor_zero

/-- All keys, of any size and order, over columns in the given states have the same hash where they
are equal, just when two of these states of one column that compare equal store values that are
alike. -/
theorem hash_eq_iff_alike (state : Abstract → Prop) :
    (∀ (string : Bytes → UInt64) (key other : ThePrimaryKey),
      (∀ data ∈ key.m_creationOrder, state data) → (∀ data ∈ other.m_creationOrder, state data) →
        key.Equal other → key.hash string = other.hash string) ↔
    ∀ x y, state x → state y → x.m_name = y.m_name → x.compare y = .ok 0 →
      Alike x.value y.value := by
  constructor
  · intro h x y hx hy hname hcompare
    refine (forall_code_eq_iff (getType_of_compare hcompare)).mp fun string => ?_
    have hhash := h string (single x) (single y)
      (fun data hdata => List.mem_singleton.mp hdata ▸ hx)
      (fun data hdata => List.mem_singleton.mp hdata ▸ hy) (equal_single hname hcompare)
    rwa [hash_single, hash_single, UInt64.xor_right_inj] at hhash
  · intro h string key other hkey hother hequal
    refine hash_eq_of_code hequal fun data hdata => ?_
    obtain ⟨hmem, hname, hcompare⟩ := (DataSet.partner_of_equal hequal).2 data hdata
    exact (forall_code_eq_iff (getType_of_compare hcompare)).mpr
      (h data _ (hkey data hdata) (hother _ hmem) hname.symm hcompare) string

theorem zero_not_mem_id : 0 ∉ text "id" := by decide

def id : CString := ⟨text "id", zero_not_mem_id⟩

/-- A key with one nullable column, behind some calls. -/
def nullable (calls : List Call) : ThePrimaryKey :=
  single (calls.foldl Abstract.call (.instantiate .Integer id 4 .CanBeNull))

/-- A null column keeps the value it had, which the hash reads. -/
theorem not_hash_eq_leftover : ¬ ∀ (string : Bytes → UInt64) (calls calls' : List Call),
    (nullable calls).Equal (nullable calls') →
      (nullable calls).hash string = (nullable calls').hash string := by
  intro h
  have hhash := h (fun _ => 0) [.setInteger 5, .isNull] [.setInteger 7, .isNull] rfl
  exact absurd hhash (by decide)

end ThePrimaryKey

end Coffee.Persistence
