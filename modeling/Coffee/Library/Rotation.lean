import Mathlib.Data.List.Count
import Mathlib.Data.List.Rotate

/-! # Turns around a list

The first element with a property in cyclic order from a position on, and what comes of picking
again and again, each time behind the element that was picked last.
-/

namespace Coffee.Library.Rotation

universe u

variable {α : Type u}

/-- The first element with the property, from the position on and around the list. -/
def pick (p : α → Bool) (xs : List α) (start : Nat) : Option α := (xs.rotate start).find? p

theorem pick_mod (p : α → Bool) (xs : List α) (start : Nat) :
    pick p xs (start % xs.length) = pick p xs start := by
  rw [pick, List.rotate_mod, pick]

theorem pick_eq_none_iff {p : α → Bool} {xs : List α} {start : Nat} :
    pick p xs start = none ↔ ∀ x ∈ xs, p x = false := by
  simp [pick]

theorem getElem?_rotate {xs : List α} (h : xs ≠ []) (start : Nat) {k : Nat} (hk : k < xs.length) :
    (xs.rotate start)[k]? = xs[(start + k) % xs.length]? := by
  have hpos := List.length_pos_iff.mpr h
  rw [List.getElem?_eq_getElem (by rwa [List.length_rotate]), List.getElem_rotate,
    List.getElem?_eq_getElem (Nat.mod_lt _ hpos)]
  simp only [Nat.add_comm]

theorem pick_of_forall {p : α → Bool} {xs : List α} (hp : ∀ x ∈ xs, p x = true) (hne : xs ≠ [])
    (start : Nat) : pick p xs start = xs[start % xs.length]? := by
  have hhead : (xs.rotate start).head? = xs[start % xs.length]? := by
    rw [List.head?_eq_getElem?, getElem?_rotate hne start (List.length_pos_iff.mpr hne),
      Nat.add_zero]
  rw [pick, ← hhead]
  cases hrotate : xs.rotate start with
  | nil => rfl
  | cons x rest =>
    have hx : x ∈ xs := List.mem_rotate.mp (by rw [hrotate]; exact List.mem_cons_self)
    rw [List.find?_cons_of_pos (hp x hx), List.head?_cons]

theorem map_range_eq_rotate (xs : List α) (start : Nat) :
    ((List.range xs.length).map fun k => xs[(start + k) % xs.length]?) = (xs.rotate start).map some := by
  refine List.ext_getElem? fun k => ?_
  rw [List.getElem?_map, List.getElem?_map]
  by_cases hk : k < xs.length
  · have hne : xs ≠ [] := List.ne_nil_of_length_pos (Nat.zero_lt_of_lt hk)
    have hlt : (start + k) % xs.length < xs.length := Nat.mod_lt _ (Nat.zero_lt_of_lt hk)
    rw [List.getElem?_range hk, getElem?_rotate hne start hk, Option.map_some,
      List.getElem?_eq_getElem hlt, Option.map_some]
  · rw [List.getElem?_eq_none (by simpa using hk), List.getElem?_eq_none (by simpa using hk)]
    rfl

variable [DecidableEq α]

theorem count_turns {xs : List α} (hnodup : xs.Nodup) (start turns : Nat) {x : α} (hx : x ∈ xs) :
    ((List.range (turns * xs.length)).map fun k => xs[(start + k) % xs.length]?).count (some x) =
      turns := by
  induction turns with
  | zero => simp
  | succ turns ih =>
    have hturn : (List.range xs.length).map
        ((fun k => xs[(start + k) % xs.length]?) ∘ fun k => turns * xs.length + k) =
          (xs.rotate start).map some := by
      rw [← map_range_eq_rotate]
      refine List.map_congr_left fun k _ => ?_
      have hmod : (start + (turns * xs.length + k)) % xs.length = (start + k) % xs.length := by
        rw [Nat.add_left_comm, Nat.add_comm, Nat.add_mul_mod_self_right]
      simp only [Function.comp_apply, hmod]
    rw [Nat.succ_mul, List.range_add, List.map_append, List.count_append, ih, List.map_map, hturn,
      List.count_map_of_injective _ _ (fun _ _ => Option.some.inj),
      List.count_eq_one_of_mem (List.nodup_rotate.mpr hnodup) (List.mem_rotate.mpr hx)]

/-- The position behind the element that was picked last, and the front of the list before. -/
def behind (xs : List α) : Option α → Nat
  | none => 0
  | some x => xs.idxOf x + 1

/-- Each property picks behind the element that was picked last. Where no element has the property,
nothing is picked and the place is kept. -/
def picks (xs : List α) : Option α → List (α → Bool) → List (Option α)
  | _, [] => []
  | last, p :: ps =>
    let picked := pick p xs (behind xs last)
    picked :: picks xs (picked.or last) ps

theorem picks_of_forall {xs : List α} (hnodup : xs.Nodup) (hne : xs ≠ []) (last : Option α)
    {ps : List (α → Bool)} (hps : ∀ p ∈ ps, ∀ x ∈ xs, p x = true) :
    picks xs last ps =
      (List.range ps.length).map fun k => xs[(behind xs last + k) % xs.length]? := by
  induction ps generalizing last with
  | nil => rfl
  | cons p ps ih =>
    have hlt : behind xs last % xs.length < xs.length := Nat.mod_lt _ (List.length_pos_iff.mpr hne)
    have hpick : pick p xs (behind xs last) = some xs[behind xs last % xs.length] := by
      rw [pick_of_forall (hps p List.mem_cons_self) hne, List.getElem?_eq_getElem hlt]
    rw [picks, hpick, Option.some_or, ih _ fun q hq => hps q (List.mem_cons_of_mem p hq),
      List.length_cons, List.range_succ_eq_map, List.map_cons, List.map_map, Nat.add_zero,
      List.getElem?_eq_getElem hlt]
    congr 1
    refine List.map_congr_left fun k _ => ?_
    have hbehind : behind xs (some xs[behind xs last % xs.length]) =
        behind xs last % xs.length + 1 := by
      rw [behind, List.Nodup.idxOf_getElem hnodup]
    rw [hbehind, Nat.add_assoc, Nat.mod_add_mod, Nat.add_comm 1 k]
    rfl

end Coffee.Library.Rotation
