import Coffee.Basis.LruCache

/-! # Primary keys with integer columns

The hash and the comparison that the cache of a storage uses, for the keys of a class whose columns
are integers that cannot be null.
-/

namespace Coffee.Persistence.PrimaryKey

open Coffee.Basis

/-- `Integer::hash`: the identity of `std::hash<int>`, with the sign extended. -/
def Integer.hash (m_value : Int32) : UInt64 := m_value.toInt64.toUInt64

def hash (key : List Int32) : UInt64 :=
  key.foldl (fun result data => result ^^^ (Integer.hash data <<< 1)) (UInt64.ofNat key.length)

/-- The difference of the first columns that differ. -/
def compare : List Int32 → List Int32 → Int32
  | data :: key, data' :: key' => if data - data' ≠ 0 then data - data' else compare key key'
  | _, _ => 0

theorem compare_eq_zero {key key' : List Int32} (hsize : key.length = key'.length) :
    compare key key' = 0 ↔ key = key' := by
  induction key generalizing key' with
  | nil => cases key' with
    | nil => simp [compare]
    | cons => cases hsize
  | cons data key ih => cases key' with
    | nil => cases hsize
    | cons data' key' =>
      have hkey := ih (Nat.succ.inj hsize)
      rw [compare]
      by_cases hdata : data = data'
      · simp [hdata, hkey]
      · have hne : data - data' ≠ 0 := fun hzero =>
          hdata ((Int32.sub_eq_iff_eq_add.mp hzero).trans (Int32.zero_add data'))
        simp [hne, hdata]

def integers (size : Nat) : LawfulHasher {key : List Int32 // key.length = size} where
  hash key := hash key.val
  equal a b := compare a.val b.val = 0
  refl a := by simp [compare_eq_zero]
  symm a b h := by
    have heq := (compare_eq_zero (a.property.trans b.property.symm)).mp (of_decide_eq_true h)
    simp [heq, compare_eq_zero]
  trans a b c hab hbc := by
    have hab := (compare_eq_zero (a.property.trans b.property.symm)).mp (of_decide_eq_true hab)
    rw [hab]
    exact hbc
  hash_eq a b h := by
    rw [(compare_eq_zero (a.property.trans b.property.symm)).mp (of_decide_eq_true h)]

end Coffee.Persistence.PrimaryKey
