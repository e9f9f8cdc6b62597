import Coffee.Basis.Text
import Coffee.Persistence.Storage

/-! # Repositories of storages

A repository creates storages under names of their own, and takes any `int` as the size of a cache.
-/

namespace Coffee.Persistence

open Coffee.Library Coffee.Basis

structure Repository (V M : Type) where
  m_storages : List (Bytes × Storage V M)

namespace Repository

variable {V M : Type}

def findStorage (repository : Repository V M) (ident : Bytes) :
    Except RuntimeException (Storage V M) :=
  match repository.m_storages.lookup ident with
  | none => .error ⟨text "ID=" ++ ident ++ text " has not been defined yet"⟩
  | some storage => .ok storage

/-- The storage that is returned is the one that the repository holds under the name. -/
def createStorage (repository : Repository V M) (ident : Bytes) (maxCacheSize : Int32)
    (keys : Nat → V) (rows : V → Option M) : Except RuntimeException (Repository V M) :=
  match repository.m_storages.lookup ident with
  | some _ => .error ⟨text "Ident=" ++ ident ++ text " has already been used"⟩
  | none => .ok ⟨(ident, .instantiate maxCacheSize keys rows) :: repository.m_storages⟩

variable {repository : Repository V M} {ident : Bytes}

/-- A name is refused just when it is used, whatever the size of the cache is. -/
theorem createStorage_isOk_iff (maxCacheSize : Int32) (keys : Nat → V) (rows : V → Option M) :
    (repository.createStorage ident maxCacheSize keys rows).isOk ↔
      ¬ (repository.findStorage ident).isOk := by
  rw [createStorage, findStorage]
  cases repository.m_storages.lookup ident <;> simp [Except.isOk, Except.toBool]

theorem findStorage_createStorage {after : Repository V M} {maxCacheSize : Int32} {keys : Nat → V}
    {rows : V → Option M}
    (h : repository.createStorage ident maxCacheSize keys rows = .ok after) :
    after.findStorage ident = .ok (.instantiate maxCacheSize keys rows) ∧
      ∀ other, other ≠ ident → after.findStorage other = repository.findStorage other := by
  rw [createStorage] at h
  split at h
  · cases h
  · cases h
    constructor
    · rw [findStorage, List.lookup_cons_self]
    · intro other hother
      rw [findStorage, findStorage, List.lookup_cons, beq_eq_false_iff_ne.mpr hother]

end Repository

end Coffee.Persistence
