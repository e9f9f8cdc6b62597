import Mathlib.Data.List.Nodup
import Mathlib.Data.List.Perm.Basic
import Mathlib.Data.Set.Defs

/-! # Comparisons

A comparison returns an integer whose sign orders its arguments. Comparisons are composed by a
least element, and lexicographically along a list of names.
-/

namespace Coffee.Library.Comparison

universe u

variable {α : Type u}

/-- A comparison whose sign is a total preorder on a set, with `same` as its equivalence. -/
structure TotalPreorder (order : α → α → Int) (same : α → α → Prop) (S : Set α) : Prop where
  antisymm : ∀ x ∈ S, ∀ y ∈ S, (order x y).sign = -(order y x).sign
  trans : ∀ x ∈ S, ∀ y ∈ S, ∀ z ∈ S, order x y ≤ 0 → order y z ≤ 0 → order x z ≤ 0
  zero : ∀ x ∈ S, ∀ y ∈ S, order x y = 0 ↔ same x y

theorem sign_eq_neg_sign_iff {a b : Int} :
    a.sign = -b.sign ↔ (a < 0 ↔ 0 < b) ∧ (a = 0 ↔ b = 0) := by
  rcases Int.lt_trichotomy a 0 with ha | rfl | ha <;>
    rcases Int.lt_trichotomy b 0 with hb | rfl | hb <;>
    simp [Int.sign_eq_neg_one_of_neg, Int.sign_eq_one_of_pos, *] <;> omega

namespace TotalPreorder

variable {order : α → α → Int} {same : α → α → Prop} {S : Set α} {x y z : α}

theorem neg_iff (h : TotalPreorder order same S) (hx : x ∈ S) (hy : y ∈ S) :
    order x y < 0 ↔ 0 < order y x :=
  (sign_eq_neg_sign_iff.mp (h.antisymm x hx y hy)).1

theorem zero_iff (h : TotalPreorder order same S) (hx : x ∈ S) (hy : y ∈ S) :
    order x y = 0 ↔ order y x = 0 :=
  (sign_eq_neg_sign_iff.mp (h.antisymm x hx y hy)).2

theorem refl (h : TotalPreorder order same S) (hx : x ∈ S) : order x x = 0 := by
  have hneg := h.neg_iff hx hx
  omega

theorem trans_of_lt_of_le (h : TotalPreorder order same S) (hx : x ∈ S) (hy : y ∈ S) (hz : z ∈ S)
    (hxy : order x y < 0) (hyz : order y z ≤ 0) : order x z < 0 := by
  have hxz := h.trans x hx y hy z hz (by omega) hyz
  have hback := h.trans y hy z hz x hx hyz
  have hxy' := h.neg_iff hx hy
  have hxz' := h.zero_iff hx hz
  omega

theorem trans_of_le_of_lt (h : TotalPreorder order same S) (hx : x ∈ S) (hy : y ∈ S) (hz : z ∈ S)
    (hxy : order x y ≤ 0) (hyz : order y z < 0) : order x z < 0 := by
  have hxz := h.trans x hx y hy z hz hxy (by omega)
  have hback := h.trans z hz x hx y hy
  have hyz' := h.neg_iff hy hz
  have hxz' := h.zero_iff hx hz
  omega

theorem trans_zero (h : TotalPreorder order same S) (hx : x ∈ S) (hy : y ∈ S) (hz : z ∈ S)
    (hxy : order x y = 0) (hyz : order y z = 0) : order x z = 0 := by
  have hxz := h.trans x hx y hy z hz (by omega) (by omega)
  have hzx := h.trans z hz y hy x hx
  have hxy' := h.zero_iff hx hy
  have hyz' := h.zero_iff hy hz
  have hxz' := h.neg_iff hx hz
  omega

end TotalPreorder

section Lexicographic

variable {N : Type u} {f g : N → Int} {names names' : List N}

/-- The first value that is not zero. -/
def first (f : N → Int) : List N → Int
  | [] => 0
  | name :: names => if f name ≠ 0 then f name else first f names

theorem first_of_zero {name : N} (h : f name = 0) (names : List N) :
    first f (name :: names) = first f names := if_neg (not_not_intro h)

theorem first_of_ne {name : N} (h : f name ≠ 0) (names : List N) :
    first f (name :: names) = f name := if_pos h

theorem first_eq_zero_iff : first f names = 0 ↔ ∀ name ∈ names, f name = 0 := by
  induction names with
  | nil => simp [first]
  | cons name names ih =>
    rw [List.forall_mem_cons]
    rcases Decidable.em (f name = 0) with hzero | hne
    · rw [first_of_zero hzero, ih]
      exact (and_iff_right hzero).symm
    · rw [first_of_ne hne]
      exact iff_of_false hne fun h => hne h.1

theorem first_append {pre post : List N} {name : N} (hpre : ∀ other ∈ pre, f other = 0)
    (hname : f name ≠ 0) : first f (pre ++ name :: post) = f name := by
  induction pre with
  | nil => exact first_of_ne hname post
  | cons other pre ih =>
    obtain ⟨hother, hpre⟩ := List.forall_mem_cons.mp hpre
    rw [List.cons_append, first_of_zero hother, ih hpre]

theorem exists_first (h : ∃ name ∈ names, f name ≠ 0) :
    ∃ pre name post, names = pre ++ name :: post ∧ (∀ other ∈ pre, f other = 0) ∧ f name ≠ 0 := by
  induction names with
  | nil =>
    obtain ⟨_, hname, _⟩ := h
    cases hname
  | cons name names ih =>
    rcases Decidable.em (f name = 0) with hzero | hne
    · obtain ⟨other, hother, hne⟩ := h
      rcases List.mem_cons.mp hother with rfl | hother
      · exact absurd hzero hne
      · obtain ⟨pre, name', post, rfl, hpre, hname'⟩ := ih ⟨other, hother, hne⟩
        exact ⟨name :: pre, name', post, rfl, List.forall_mem_cons.mpr ⟨hzero, hpre⟩, hname'⟩
    · exact ⟨[], name, names, rfl, List.forall_mem_nil _, hne⟩

theorem mem_of_sublist {pre post : List N} {i j : N} (h : [i, j].Sublist (pre ++ j :: post))
    (hnodup : (pre ++ j :: post).Nodup) (hne : i ≠ j) : i ∈ pre := by
  obtain ⟨front, back, hsplit, hfront, hback⟩ := List.sublist_append_iff.mp h
  rcases front with _ | ⟨first, front⟩
  · obtain rfl : [i, j] = back := hsplit
    have hj : j ∉ post := (List.nodup_cons.mp (List.nodup_append.mp hnodup).2.1).1
    rcases List.sublist_cons_iff.mp hback with hpost | ⟨rest, hrest, -⟩
    · exact absurd (hpost.subset (by simp)) hj
    · exact absurd (List.cons.inj hrest).1 hne
  · obtain ⟨rfl, -⟩ := List.cons.inj hsplit
    exact hfront.subset List.mem_cons_self

theorem mem_behind_of_sublist {pre post : List N} {i j : N}
    (h : [i, j].Sublist (pre ++ i :: post)) (hnodup : (pre ++ i :: post).Nodup) : j ∈ post := by
  obtain ⟨front, back, hsplit, hfront, hback⟩ := List.sublist_append_iff.mp h
  rcases front with _ | ⟨first, front⟩
  · obtain rfl : [i, j] = back := hsplit
    rcases List.sublist_cons_iff.mp hback with hpost | ⟨rest, hrest, hpost⟩
    · exact hpost.subset (by simp)
    · obtain rfl := (List.cons.inj hrest).2
      exact hpost.subset List.mem_cons_self
  · obtain ⟨rfl, -⟩ := List.cons.inj hsplit
    have hpre := hfront.subset List.mem_cons_self
    exact absurd rfl ((List.nodup_append.mp hnodup).2.2 i hpre i List.mem_cons_self)

theorem sublist_or_sublist {i j : N} (hi : i ∈ names) (hj : j ∈ names) (hne : i ≠ j) :
    [i, j].Sublist names ∨ [j, i].Sublist names := by
  obtain ⟨pre, post, rfl⟩ := List.append_of_mem hi
  rcases List.mem_append.mp hj with hj | hj
  · exact Or.inr ((List.singleton_sublist.mpr hj).append
      (List.singleton_sublist.mpr List.mem_cons_self))
  · have hpost : j ∈ post := (List.mem_cons.mp hj).resolve_left hne.symm
    exact Or.inl (List.sublist_append_of_sublist_right (List.cons_sublist_cons.mpr
      (List.singleton_sublist.mpr hpost)))

/-- The first value does not change when the names that matter keep their order. -/
theorem first_eq_of_sublist (hperm : names.Perm names') (hnodup : names'.Nodup)
    (horder : ∀ i j, f i ≠ 0 → f j ≠ 0 → [i, j].Sublist names → [i, j].Sublist names') :
    first f names = first f names' := by
  rcases Decidable.em (first f names' = 0) with hzero | hne
  · rw [hzero]
    exact first_eq_zero_iff.mpr fun name hname =>
      first_eq_zero_iff.mp hzero name (hperm.mem_iff.mp hname)
  · obtain ⟨j, hj, hfj⟩ : ∃ name ∈ names', f name ≠ 0 := by
      simpa using fun h => hne (first_eq_zero_iff.mpr h)
    obtain ⟨pre', j, post', rfl, hpre', hfj⟩ := exists_first ⟨j, hj, hfj⟩
    have hmem : j ∈ names := hperm.mem_iff.mpr (by simp)
    obtain ⟨pre, i, post, rfl, hpre, hfi⟩ := exists_first ⟨j, hmem, hfj⟩
    rw [first_append hpre hfi, first_append hpre' hfj]
    rcases List.mem_append.mp hmem with hbefore | hbehind
    · exact absurd (hpre j hbefore) hfj
    · rcases List.mem_cons.mp hbehind with rfl | hbehind
      · rfl
      · have hsublist : [i, j].Sublist (pre ++ i :: post) :=
          List.sublist_append_of_sublist_right (List.cons_sublist_cons.mpr
            (List.singleton_sublist.mpr hbehind))
        rcases Decidable.em (f i = f j) with heq | hdiffer
        · exact heq
        · have hbefore := mem_of_sublist (horder i j hfi hfj hsublist) hnodup
            fun heq => hdiffer (heq ▸ rfl)
          exact absurd (hpre' i hbefore) hfi

theorem first_sign (h : ∀ name ∈ names, (f name).sign = -(g name).sign) :
    (first f names).sign = -(first g names).sign := by
  induction names with
  | nil => rfl
  | cons name names ih =>
    obtain ⟨hname, hnames⟩ := List.forall_mem_cons.mp h
    have hzero := (sign_eq_neg_sign_iff.mp hname).2
    rcases Decidable.em (f name = 0) with hf | hf
    · rw [first_of_zero hf, first_of_zero (hzero.mp hf)]
      exact ih hnames
    · rw [first_of_ne hf, first_of_ne fun hg => hf (hzero.mpr hg)]
      exact hname

/-- Total preorders compose lexicographically. -/
theorem TotalPreorder.lexicographic {order : α → α → Int} {same : α → α → Prop}
    {column : N → Set α} (h : ∀ name ∈ names, TotalPreorder order same (column name)) :
    TotalPreorder (fun a b : N → α => first (fun name => order (a name) (b name)) names)
      (fun a b => ∀ name ∈ names, same (a name) (b name))
      {a | ∀ name ∈ names, a name ∈ column name} where
  antisymm a ha b hb := first_sign fun name hname =>
    (h name hname).antisymm _ (ha name hname) _ (hb name hname)
  trans a ha b hb c hc hab hbc := by
    induction names with
    | nil => exact Int.le_refl 0
    | cons name names ih =>
      obtain ⟨hname, hnames⟩ := List.forall_mem_cons.mp h
      obtain ⟨ha, has⟩ := List.forall_mem_cons.mp ha
      obtain ⟨hb, hbs⟩ := List.forall_mem_cons.mp hb
      obtain ⟨hc, hcs⟩ := List.forall_mem_cons.mp hc
      unfold first at hab hbc ⊢
      split at hab <;> split at hbc
      · have hlt := hname.trans_of_lt_of_le ha hb hc (by omega) hbc
        rw [if_pos (by omega)]
        exact Int.le_of_lt hlt
      · have hlt := hname.trans_of_lt_of_le ha hb hc (by omega) (by omega)
        rw [if_pos (by omega)]
        exact Int.le_of_lt hlt
      · have hlt := hname.trans_of_le_of_lt ha hb hc (by omega) (by omega)
        rw [if_pos (by omega)]
        exact Int.le_of_lt hlt
      · have hzero := hname.trans_zero ha hb hc (by omega) (by omega)
        rw [if_neg (not_not_intro hzero)]
        exact ih hnames has hbs hcs hab hbc
  zero a ha b hb := by
    rw [first_eq_zero_iff]
    exact forall₂_congr fun name hname =>
      (h name hname).zero _ (ha name hname) _ (hb name hname)

end Lexicographic

/-- `none` in front of everything else. -/
def noneFirst (order : α → α → Int) : Option α → Option α → Int
  | none, none => 0
  | none, some _ => -1
  | some _, none => 1
  | some x, some y => order x y

theorem TotalPreorder.noneFirst {order : α → α → Int} {S : Set (Option α)}
    (h : TotalPreorder order Eq {x | some x ∈ S}) :
    TotalPreorder (Comparison.noneFirst order) Eq S where
  antisymm x hx y hy := by
    rcases x with _ | x <;> rcases y with _ | y
    · rfl
    · rfl
    · rfl
    · exact h.antisymm x hx y hy
  trans x hx y hy z hz hxy hyz := by
    rcases x with _ | x
    · rcases z with _ | z
      · exact Int.le_refl 0
      · exact show (-1 : Int) ≤ 0 by decide
    · rcases y with _ | y
      · exact absurd (show (1 : Int) ≤ 0 from hxy) (by decide)
      · rcases z with _ | z
        · exact absurd (show (1 : Int) ≤ 0 from hyz) (by decide)
        · exact h.trans x hx y hy z hz hxy hyz
  zero x hx y hy := by
    rcases x with _ | x <;> rcases y with _ | y
    · exact iff_of_true rfl rfl
    · exact iff_of_false (show ¬ (-1 : Int) = 0 by decide) nofun
    · exact iff_of_false (show ¬ (1 : Int) = 0 by decide) nofun
    · exact (h.zero x hx y hy).trans (Option.some_inj).symm

theorem TotalPreorder.of_noneFirst {order : α → α → Int} {S : Set (Option α)}
    (h : TotalPreorder (Comparison.noneFirst order) Eq S) :
    TotalPreorder order Eq {x | some x ∈ S} where
  antisymm x hx y hy := h.antisymm (some x) hx (some y) hy
  trans x hx y hy z hz := h.trans (some x) hx (some y) hy (some z) hz
  zero x hx y hy := (h.zero (some x) hx (some y) hy).trans Option.some_inj

end Coffee.Library.Comparison
