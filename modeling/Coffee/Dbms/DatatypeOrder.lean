import Coffee.Dbms.Datatype
import Coffee.Library.Circular

/-! # The order of datatypes

Each `do_compare` orders its values by an integer key on the circle of the 32 bit integers, and the
values of one key by C strings. The null rule puts null in front.
-/

namespace Coffee.Dbms

open Coffee.Basis Coffee.Library Library.Comparison Library.Circular

section ThreeWay

theorem threeWay_eq_zero {α : Type} [LT α] [DecidableEq α] [DecidableLT α]
    [Std.Trichotomous fun a b : α => a < b] [Std.Irrefl fun a b : α => a < b] {a b : List α} :
    threeWay a b = 0 ↔ a = b := by
  unfold threeWay
  constructor
  · intro h
    split at h
    · cases h
    · rename_i hab
      split at h
      · cases h
      · rename_i hba
        exact List.le_antisymm (List.not_lt.mp hba) (List.not_lt.mp hab)
  · rintro rfl
    rw [if_neg (List.lt_irrefl a), if_neg (List.lt_irrefl a)]

variable {a b c : List Bytes}

theorem threeWay_sign (a b : List Bytes) :
    (threeWay a b).toInt.sign = -(threeWay b a).toInt.sign := by
  unfold threeWay
  split
  · rename_i hlt
    rw [if_neg (List.lt_asymm hlt)]
    rfl
  · split <;> rfl

theorem threeWay_nonpos_iff : (threeWay a b).toInt ≤ 0 ↔ ¬ b < a := by
  unfold threeWay
  split
  · rename_i hlt
    exact iff_of_true (by decide) (List.lt_asymm hlt)
  · split
    · rename_i hlt
      exact iff_of_false (by decide) (not_not_intro hlt)
    · rename_i hnot
      exact iff_of_true (by decide) hnot

theorem threeWay_trans (hab : (threeWay a b).toInt ≤ 0) (hbc : (threeWay b c).toInt ≤ 0) :
    (threeWay a c).toInt ≤ 0 := by
  rw [threeWay_nonpos_iff] at hab hbc ⊢
  exact List.not_lt.mpr (List.le_trans (List.not_lt.mp hab) (List.not_lt.mp hbc))

end ThreeWay

namespace Datatype

theorem threeWay_cons (a b : Bytes) (as bs : List Bytes) :
    threeWay (a :: as) (b :: bs) = if threeWay a b ≠ 0 then threeWay a b else threeWay as bs := by
  split
  · rename_i hne
    have hab : a ≠ b := fun h => hne (threeWay_eq_zero.mpr h)
    simp [threeWay, List.cons_lt_cons_iff, hab, hab.symm]
  · rename_i heq
    obtain rfl := threeWay_eq_zero.mp (not_not.mp heq)
    simp [threeWay]

theorem MultiString.firstDifference_eq {values other : List Bytes}
    (h : values.length = other.length) :
    firstDifference values other = threeWay (values.map cStr) (other.map cStr) := by
  induction values generalizing other with
  | nil =>
    obtain rfl := List.length_eq_zero_iff.mp h.symm
    rfl
  | cons value values ih =>
    cases other with
    | nil => cases h
    | cons value' other =>
      rw [firstDifference, ih (Nat.succ.inj h), List.map_cons, List.map_cons, threeWay_cons]
      rfl

namespace Value

/-- The number that is subtracted. -/
def key : Value → Int
  | Integer m_value => m_value.toInt
  | Date m_value => m_value.toInt
  | TimeStamp m_value => m_value.toInt
  | MultiString values => values.length
  | _ => 0

/-- The strings that are compared where the keys have one place. -/
def strings : Value → List Bytes
  | String m_value => [m_value.val]
  | MultiString values => values.take (values.length % 2 ^ 32)
  | _ => []

def tie (x y : Value) : Int := (threeWay (x.strings.map cStr) (y.strings.map cStr)).toInt

theorem tie_empty {x y : Value} (hx : x.strings = []) (hy : y.strings = []) : tie x y = 0 := by
  rw [tie, hx, hy]
  rfl

theorem ties : Ties (2 ^ 31) key tie where
  antisymm _ _ _ := threeWay_sign _ _
  trans _ _ _ _ _ := threeWay_trans

theorem integer_order (a b : Int32) :
    (Integer.do_compare a b).toInt = keyed (2 ^ 31) key tie (Integer a) (Integer b) := by
  rw [keyed_of_tie key tie (tie_empty rfl rfl)]
  exact Int32.toInt_sub a b

theorem date_narrowed (a b : Int64) :
    (Date.do_compare a b).toInt = narrowed (2 ^ 31) a.toInt b.toInt := by
  rw [Date.do_compare, Int64.toInt_toInt32, Int64.toInt_sub, Int.bmod_bmod_of_dvd (by decide)]
  rfl

theorem date_order (a b : Int64) :
    (Date.do_compare a b).toInt = keyed (2 ^ 31) key tie (Date a) (Date b) := by
  rw [keyed_of_tie key tie (tie_empty rfl rfl)]
  exact date_narrowed a b

theorem timeStamp_order (a b : Int64) :
    (Date.do_compare a b).toInt = keyed (2 ^ 31) key tie (TimeStamp a) (TimeStamp b) := by
  rw [keyed_of_tie key tie (tie_empty rfl rfl)]
  exact date_narrowed a b

theorem string_order (s t : CString) :
    (strcmp s t).toInt = keyed (2 ^ 31) key tie (String s) (String t) := by
  rw [keyed_of_place key tie (by decide) (ahead_self 0), tie, strings, strings, List.map_singleton,
    List.map_singleton, threeWay_cons]
  split
  · rfl
  · rename_i hzero
    rw [strcmp, not_not.mp hzero]
    rfl

theorem multiString_order (values other : List Bytes) :
    (MultiString.do_compare values other).toInt =
      keyed (2 ^ 31) key tie (MultiString values) (MultiString other) := by
  have hdiff : (Int32.ofInt (values.length - other.length)).toInt =
      narrowed (2 ^ 31) (key (MultiString values)) (key (MultiString other)) := Int32.toInt_ofInt
  rw [MultiString.do_compare, keyed, ← hdiff]
  dsimp only
  split
  · rename_i hne
    have hne' : (Int32.ofInt (values.length - other.length)).toInt ≠ 0 := fun hzero =>
      hne (Int32.toInt_inj.mp hzero)
    rw [if_pos hne']
  · rename_i heq
    have hzero := not_not.mp heq
    rw [hzero] at hdiff
    have hdvd : (4294967296 : Int) ∣ values.length - other.length :=
      Int.dvd_of_bmod_eq_zero hdiff.symm
    have hlength : (values.take (values.length % 2 ^ 32)).length =
        (other.take (values.length % 2 ^ 32)).length := by
      rw [List.length_take, List.length_take]
      omega
    have hother : other.length % 2 ^ 32 = values.length % 2 ^ 32 := by omega
    rw [if_neg (by simp [hzero]), MultiString.firstDifference_eq hlength, tie, strings, strings,
      hother]

theorem do_compare_order {x y : Value} (htype : x.getType = y.getType)
    (hshort : x.getType ≠ .ShortBlock) (hlong : x.getType ≠ .LongBlock) :
    ∃ result, x.do_compare y = .ok result ∧ result.toInt = keyed (2 ^ 31) key tie x y := by
  cases x with
  | ShortBlock a => exact absurd rfl hshort
  | LongBlock a => exact absurd rfl hlong
  | Integer a =>
    cases y with
    | Integer b => exact ⟨_, rfl, integer_order a b⟩
    | _ => cases htype
  | String a =>
    cases y with
    | String b => exact ⟨_, rfl, string_order a b⟩
    | _ => cases htype
  | MultiString a =>
    cases y with
    | MultiString b => exact ⟨_, rfl, multiString_order a b⟩
    | _ => cases htype
  | Date a =>
    cases y with
    | Date b => exact ⟨_, rfl, date_order a b⟩
    | _ => cases htype
  | TimeStamp a =>
    cases y with
    | TimeStamp b => exact ⟨_, rfl, timeStamp_order a b⟩
    | _ => cases htype

theorem do_compare_eq_zero {x y : Value} (htype : x.getType = y.getType)
    (h : x.do_compare y = .ok 0) :
    (key y - key x) % 2 ^ 32 = 0 ∧ x.strings.map cStr = y.strings.map cStr := by
  have hshort : x.getType ≠ .ShortBlock := by
    rintro hblock
    cases x with
    | ShortBlock a => cases h
    | _ => cases hblock
  have hlong : x.getType ≠ .LongBlock := by
    rintro hblock
    cases x with
    | LongBlock a => cases h
    | _ => cases hblock
  obtain ⟨result, hresult, horder⟩ := do_compare_order htype hshort hlong
  obtain rfl := Except.ok.inj (h.symm.trans hresult)
  obtain ⟨hplace, htie⟩ := (keyed_eq_zero_iff (by decide)).mp horder.symm
  exact ⟨hplace, threeWay_eq_zero.mp (Int32.toInt_inj.mp htie)⟩

end Value

namespace Abstract

/-- Null in front of the values. -/
def order : Option Value → Option Value → Int := noneFirst (keyed (2 ^ 31) Value.key Value.tie)

/-- What a total preorder with null in front would be. -/
structure Lawful (S : Set Abstract) : Prop where
  antisymm : ∀ x ∈ S, ∀ y ∈ S, ∃ result reverse, x.compare y = .ok result ∧
    y.compare x = .ok reverse ∧ result.toInt.sign = -reverse.toInt.sign
  trans : ∀ x ∈ S, ∀ y ∈ S, ∀ z ∈ S, ∀ xy yz xz, x.compare y = .ok xy → y.compare z = .ok yz →
    x.compare z = .ok xz → xy ≤ 0 → yz ≤ 0 → xz ≤ 0
  zero : ∀ x ∈ S, ∀ y ∈ S, x.compare y = .ok 0 ↔ x.contents = y.contents
  null_least : ∀ x ∈ S, ∀ y ∈ S, x.m_isNull = true → ∃ result, x.compare y = .ok result ∧
    result ≤ 0

variable {x y : Abstract}

theorem compare_order (htype : x.getType = y.getType) (hshort : x.getType ≠ .ShortBlock)
    (hlong : x.getType ≠ .LongBlock) :
    ∃ result, x.compare y = .ok result ∧ result.toInt = order x.contents y.contents := by
  obtain ⟨result, hresult, horder⟩ := Value.do_compare_order htype hshort hlong
  unfold compare contents
  rw [if_neg (by simp [htype])]
  cases hx : x.hasValue <;> cases hy : y.hasValue
  · exact ⟨0, rfl, rfl⟩
  · exact ⟨-1, rfl, rfl⟩
  · exact ⟨1, rfl, rfl⟩
  · exact ⟨result, hresult, horder⟩

def shown (S : Set Abstract) : Set (Option Value) := {value | ∃ column ∈ S, column.contents = value}

/-- The values that the columns of a set show. -/
def values (S : Set Abstract) : Set Value := {value | ∃ column ∈ S, column.contents = some value}

theorem le_zero_iff {result : Int32} : result ≤ 0 ↔ result.toInt ≤ 0 := Int32.le_iff_toInt_le

theorem Lawful.mono {S T : Set Abstract} (h : Lawful T) (hsub : S ⊆ T) : Lawful S where
  antisymm x hx y hy := h.antisymm x (hsub hx) y (hsub hy)
  trans x hx y hy z hz := h.trans x (hsub hx) y (hsub hy) z (hsub hz)
  zero x hx y hy := h.zero x (hsub hx) y (hsub hy)
  null_least x hx y hy := h.null_least x (hsub hx) y (hsub hy)

section Columns

variable {type : Datatype} {S : Set Abstract}

theorem lawful_iff_totalPreorder (hshort : type ≠ .ShortBlock) (hlong : type ≠ .LongBlock)
    (hS : ∀ column ∈ S, column.getType = type) :
    Lawful S ↔ TotalPreorder order Eq (shown S) := by
  have hcompare : ∀ x ∈ S, ∀ y ∈ S, ∃ result, x.compare y = .ok result ∧
      result.toInt = order x.contents y.contents := fun x hx y hy =>
    compare_order ((hS x hx).trans (hS y hy).symm) (hS x hx ▸ hshort) (hS x hx ▸ hlong)
  constructor
  · intro h
    refine ⟨?_, ?_, ?_⟩
    · rintro _ ⟨x, hx, rfl⟩ _ ⟨y, hy, rfl⟩
      obtain ⟨result, hresult, horder⟩ := hcompare x hx y hy
      obtain ⟨reverse, hreverse, horder'⟩ := hcompare y hy x hx
      obtain ⟨result', reverse', hresult', hreverse', hsign⟩ := h.antisymm x hx y hy
      obtain rfl := Except.ok.inj (hresult.symm.trans hresult')
      obtain rfl := Except.ok.inj (hreverse.symm.trans hreverse')
      rw [← horder, ← horder']
      exact hsign
    · rintro _ ⟨x, hx, rfl⟩ _ ⟨y, hy, rfl⟩ _ ⟨z, hz, rfl⟩ hxy hyz
      obtain ⟨xy, hcompareXY, horderXY⟩ := hcompare x hx y hy
      obtain ⟨yz, hcompareYZ, horderYZ⟩ := hcompare y hy z hz
      obtain ⟨xz, hcompareXZ, horderXZ⟩ := hcompare x hx z hz
      rw [← horderXY] at hxy
      rw [← horderYZ] at hyz
      rw [← horderXZ]
      exact le_zero_iff.mp (h.trans x hx y hy z hz xy yz xz hcompareXY hcompareYZ hcompareXZ
        (le_zero_iff.mpr hxy) (le_zero_iff.mpr hyz))
    · rintro _ ⟨x, hx, rfl⟩ _ ⟨y, hy, rfl⟩
      obtain ⟨result, hresult, horder⟩ := hcompare x hx y hy
      rw [← h.zero x hx y hy, hresult, ← horder, Except.ok.injEq, ← Int32.toInt_inj]
      rfl
  · intro h
    refine ⟨?_, ?_, ?_, ?_⟩
    · intro x hx y hy
      obtain ⟨result, hresult, horder⟩ := hcompare x hx y hy
      obtain ⟨reverse, hreverse, horder'⟩ := hcompare y hy x hx
      refine ⟨result, reverse, hresult, hreverse, ?_⟩
      rw [horder, horder']
      exact h.antisymm _ ⟨x, hx, rfl⟩ _ ⟨y, hy, rfl⟩
    · intro x hx y hy z hz xy yz xz hxy hyz hxz
      obtain ⟨xy', hcompareXY, horderXY⟩ := hcompare x hx y hy
      obtain ⟨yz', hcompareYZ, horderYZ⟩ := hcompare y hy z hz
      obtain ⟨xz', hcompareXZ, horderXZ⟩ := hcompare x hx z hz
      obtain rfl := Except.ok.inj (hxy.symm.trans hcompareXY)
      obtain rfl := Except.ok.inj (hyz.symm.trans hcompareYZ)
      obtain rfl := Except.ok.inj (hxz.symm.trans hcompareXZ)
      rw [le_zero_iff, le_zero_iff, le_zero_iff, horderXY, horderYZ, horderXZ]
      exact h.trans _ ⟨x, hx, rfl⟩ _ ⟨y, hy, rfl⟩ _ ⟨z, hz, rfl⟩
    · intro x hx y hy
      obtain ⟨result, hresult, horder⟩ := hcompare x hx y hy
      rw [← h.zero _ ⟨x, hx, rfl⟩ _ ⟨y, hy, rfl⟩, hresult, ← horder, Except.ok.injEq,
        ← Int32.toInt_inj]
      rfl
    · intro x hx y hy hnull
      obtain ⟨result, hresult, horder⟩ := hcompare x hx y hy
      have hcontents : x.contents = none := by simp [contents, hasValue, hnull]
      refine ⟨result, hresult, ?_⟩
      rw [le_zero_iff, horder, hcontents]
      cases y.contents
      · exact Int.le_refl 0
      · exact show (-1 : Int) ≤ 0 by decide

theorem totalPreorder_shown_iff : TotalPreorder order Eq (shown S) ↔
    Separated (2 ^ 31) Value.key Value.tie (values S) :=
  calc
    TotalPreorder order Eq (shown S) ↔
        TotalPreorder (keyed (2 ^ 31) Value.key Value.tie) Eq (values S) :=
      ⟨TotalPreorder.of_noneFirst (S := shown S), TotalPreorder.noneFirst (S := shown S)⟩
    _ ↔ Separated (2 ^ 31) Value.key Value.tie (values S) :=
      totalPreorder_iff_separated (by decide) Value.ties

/-- The columns of a datatype are ordered lawfully exactly when their values are separated. -/
theorem lawful_iff_separated (hshort : type ≠ .ShortBlock) (hlong : type ≠ .LongBlock)
    (hS : ∀ column ∈ S, column.getType = type) :
    Lawful S ↔ Separated (2 ^ 31) Value.key Value.tie (values S) :=
  (lawful_iff_totalPreorder hshort hlong hS).trans totalPreorder_shown_iff

end Columns

def integer (i : Int32) : Abstract :=
  (instantiate .Integer ⟨text "id", by decide⟩ 4 .CanNotBeNull).call (.setInteger i)

/-- The least integer and zero are each below the other. -/
theorem not_lawful_integers : ¬ ∀ (type : Datatype) (S : Set Abstract), type ≠ .ShortBlock →
    type ≠ .LongBlock → (∀ column ∈ S, column.getType = type) → Lawful S := by
  intro h
  have hlawful := h .Integer {column | column.getType = .Integer} (by decide) (by decide)
    fun _ hcolumn => hcolumn
  obtain ⟨result, reverse, hresult, hreverse, hsign⟩ :=
    hlawful.antisymm (integer 0) rfl (integer (-2147483648)) rfl
  obtain rfl : (-2147483648 : Int32) = result := Except.ok.inj hresult
  obtain rfl : (-2147483648 : Int32) = reverse := Except.ok.inj hreverse
  exact absurd hsign (by decide)

def naturals : Set Abstract := {column | ∃ i : Int32, 0 ≤ i.toInt ∧ column.value = .Integer i}

theorem mem_values_naturals {value : Value} (h : value ∈ values naturals) :
    ∃ i : Int32, 0 ≤ i.toInt ∧ value = .Integer i := by
  obtain ⟨column, ⟨i, hi, hcolumn⟩, hcontents⟩ := h
  refine ⟨i, hi, ?_⟩
  unfold contents at hcontents
  split at hcontents
  · exact (Option.some.inj hcontents).symm.trans hcolumn
  · cases hcontents

theorem type_of_mem_naturals : ∀ column ∈ naturals, column.getType = .Integer := by
  rintro column ⟨i, -, hcolumn⟩
  rw [getType, hcolumn]
  rfl

theorem separated_naturals : Separated (2 ^ 31) Value.key Value.tie (values naturals) := by
  refine .of_near ?_ ?_
  · intro x hx y hy
    obtain ⟨a, ha, rfl⟩ := mem_values_naturals hx
    obtain ⟨b, -, rfl⟩ := mem_values_naturals hy
    have hb := Int32.toInt_lt b
    simp only [Value.key]
    omega
  · intro x hx y hy hkey _
    obtain ⟨a, -, rfl⟩ := mem_values_naturals hx
    obtain ⟨b, -, rfl⟩ := mem_values_naturals hy
    rw [Int32.toInt_inj.mp hkey]

theorem lawful_naturals : Lawful naturals :=
  (lawful_iff_separated (by decide) (by decide) type_of_mem_naturals).mpr separated_naturals

end Abstract

end Datatype

end Coffee.Dbms
