import Mathlib.Data.List.Infix

/-! # Cutting a sequence at a two-element separator

A scanner that looks for the first occurrence of a pair `a b`, hands over what stands before
it and goes on behind it computes `cut a b`. A sequence that ends in the separator has no
empty last piece, and the empty sequence has no piece at all.
-/

namespace Coffee.Library.Cut

variable {α : Type*} {a b : α}

/-- Puts an element in front of the first piece, opening one when there is none. -/
def glue (x : α) : List (List α) → List (List α)
  | [] => [[x]]
  | p :: ps => (x :: p) :: ps

theorem glue_ne_nil (x : α) (ps : List (List α)) : glue x ps ≠ [] := by
  cases ps <;> simp [glue]

theorem not_infix_of_not_mem {l : List α} (h : a ∉ l) : ¬ [a, b] <:+: l :=
  fun hi => h (hi.subset (by simp))

/-- An element that the separator does not hold keeps what stands before it from what stands
behind. -/
theorem infix_append_cons_iff {c : α} (hca : c ≠ a) (hcb : c ≠ b) {l rest : List α} :
    [a, b] <:+: l ++ c :: rest ↔ [a, b] <:+: l ∨ [a, b] <:+: rest := by
  constructor
  · intro h
    induction l with
    | nil =>
      rcases List.infix_cons_iff.mp h with hprefix | hrest
      · exact absurd (List.cons_prefix_cons.mp hprefix).1.symm hca
      · exact .inr hrest
    | cons x l ih =>
      rcases List.infix_cons_iff.mp h with hprefix | hrest
      · obtain ⟨rfl, hnext⟩ := List.cons_prefix_cons.mp hprefix
        cases l with
        | nil => exact absurd (List.cons_prefix_cons.mp hnext).1.symm hcb
        | cons y l =>
          obtain ⟨rfl, -⟩ := List.cons_prefix_cons.mp hnext
          exact .inl ⟨[], l, rfl⟩
      · exact (ih hrest).imp_left fun hl => hl.trans (List.suffix_cons x l).isInfix
  · rintro (hl | hrest)
    · exact hl.trans (List.prefix_append l _).isInfix
    · exact hrest.trans ((List.suffix_cons c rest).trans (List.suffix_append l _)).isInfix

/-- What stands behind a separator decides whether the sequence ends in one, unless it is empty. -/
theorem suffix_behind_separator (hab : a ≠ b) {s front rest : List α}
    (hs : front ++ a :: b :: rest = s) (hrest : rest ≠ []) :
    [a, b] <:+ s ↔ [a, b] <:+ rest := by
  have hsuffix : rest <:+ s := ⟨front ++ [a, b], by rw [← hs, List.append_assoc]; rfl⟩
  constructor
  · intro h
    rcases Nat.lt_or_ge rest.length 2 with hshort | hlong
    · obtain ⟨x, rfl⟩ : ∃ x, rest = [x] := by
        rw [← List.length_eq_one_iff]
        have hpos := List.length_pos_iff.mpr hrest
        omega
      have hlast : [b, x] <:+ s := ⟨front ++ [a], by rw [← hs, List.append_assoc]; rfl⟩
      have hsame := (List.suffix_of_suffix_length_le h hlast (Nat.le_refl 2)).eq_of_length rfl
      exact absurd (List.cons.inj hsame).1 hab
    · exact List.suffix_of_suffix_length_le h hsuffix hlong
  · exact fun h => h.trans hsuffix

/-- Each piece paired with what stands behind its separator. -/
def follow : List (List α) → List α → List (List α × List α)
  | [], _ => []
  | p :: ps, s => (p, s.drop (p.length + 2)) :: follow ps (s.drop (p.length + 2))

theorem follow_map_fst (ps : List (List α)) (s : List α) : (follow ps s).map Prod.fst = ps := by
  induction ps generalizing s with
  | nil => rfl
  | cons p ps ih => rw [follow, List.map_cons, ih]

variable [DecidableEq α]

def cut (a b : α) : List α → List (List α)
  | [] => []
  | [x] => [[x]]
  | x :: y :: rest => if x = a ∧ y = b then [] :: cut a b rest else glue x (cut a b (y :: rest))

def position (a b : α) : List α → Option Nat
  | [] => none
  | [_] => none
  | x :: y :: rest => if x = a ∧ y = b then some 0 else (position a b (y :: rest)).map (· + 1)

@[simp] theorem cut_nil : cut a b [] = [] := rfl

@[simp] theorem cut_separator (rest : List α) : cut a b (a :: b :: rest) = [] :: cut a b rest := by
  simp [cut]

theorem cut_ne_nil {s : List α} (hs : s ≠ []) : cut a b s ≠ [] := by
  match s, hs with
  | [_], _ => simp [cut]
  | x :: y :: rest, _ =>
    rw [cut]
    split
    · simp
    · exact glue_ne_nil _ _

theorem position_lt {s : List α} {i : Nat} (h : position a b s = some i) : i + 2 ≤ s.length := by
  induction s using position.induct a b generalizing i with
  | case1 => cases h
  | case2 _ => cases h
  | case3 x y rest hxy =>
    simp only [position, if_pos hxy, Option.some.injEq] at h
    simp only [List.length_cons]
    omega
  | case4 x y rest hxy ih =>
    simp only [position, if_neg hxy, Option.map_eq_some_iff] at h
    obtain ⟨j, hj, rfl⟩ := h
    have := ih hj
    simp only [List.length_cons] at this ⊢
    omega

theorem position_eq_none_iff {s : List α} : position a b s = none ↔ ¬ [a, b] <:+: s := by
  induction s using position.induct a b with
  | case1 => simp [position]
  | case2 x =>
    simp only [position, true_iff]
    intro h
    have := h.length_le
    simp at this
  | case3 x y rest hxy =>
    simp only [position, if_pos hxy, reduceCtorEq, false_iff, not_not]
    obtain ⟨rfl, rfl⟩ := hxy
    exact ⟨[], rest, rfl⟩
  | case4 x y rest hxy ih =>
    simp only [position, if_neg hxy, Option.map_eq_none_iff, ih]
    rw [@List.infix_cons_iff _ _ _ (y :: rest)]
    constructor
    · rintro h (hp | hi)
      · obtain ⟨t, ht⟩ := hp
        simp only [List.cons_append, List.nil_append, List.cons.injEq] at ht
        exact hxy ⟨ht.1.symm, ht.2.1.symm⟩
      · exact h hi
    · exact fun h hi => h (Or.inr hi)

theorem cut_of_position_none {s : List α} (hs : s ≠ []) (h : position a b s = none) :
    cut a b s = [s] := by
  induction s using position.induct a b with
  | case1 => exact absurd rfl hs
  | case2 x => rfl
  | case3 x y rest hxy => simp [position, if_pos hxy] at h
  | case4 x y rest hxy ih =>
    simp only [position, if_neg hxy, Option.map_eq_none_iff] at h
    rw [cut, if_neg hxy, ih (by simp) h]
    rfl

theorem cut_of_position_some {s : List α} {i : Nat} (h : position a b s = some i) :
    cut a b s = s.take i :: cut a b (s.drop (i + 2)) := by
  induction s using position.induct a b generalizing i with
  | case1 => cases h
  | case2 _ => cases h
  | case3 x y rest hxy =>
    simp only [position, if_pos hxy, Option.some.injEq] at h
    subst h
    rw [cut, if_pos hxy]
    rfl
  | case4 x y rest hxy ih =>
    simp only [position, if_neg hxy, Option.map_eq_some_iff] at h
    obtain ⟨j, hj, rfl⟩ := h
    rw [cut, if_neg hxy, ih hj]
    simp [glue]

theorem position_append_separator (hab : a ≠ b) {l : List α} (h : ¬ [a, b] <:+: l)
    (rest : List α) : position a b (l ++ a :: b :: rest) = some l.length := by
  induction l with
  | nil => simp [position]
  | cons x l ih =>
    have hl : ¬ [a, b] <:+: l := fun hi => h (hi.trans (List.suffix_cons x l).isInfix)
    cases l with
    | nil =>
      have hxa : ¬ (x = a ∧ a = b) := fun h => hab h.2
      simp [position, if_neg hxa]
    | cons y l =>
      have hxy : ¬ (x = a ∧ y = b) := by
        rintro ⟨rfl, rfl⟩
        exact h ⟨[], l, rfl⟩
      have hi := ih hl
      simp only [List.cons_append] at hi ⊢
      rw [position, if_neg hxy, hi]
      rfl

theorem cut_append_separator (hab : a ≠ b) {l : List α} (h : ¬ [a, b] <:+: l) (rest : List α) :
    cut a b (l ++ a :: b :: rest) = l :: cut a b rest := by
  rw [cut_of_position_some (position_append_separator hab h rest)]
  simp

theorem cut_lines (hab : a ≠ b) (lines : List (List α)) (hlines : ∀ l ∈ lines, a ∉ l)
    (rest : List α) :
    cut a b (lines.flatMap (· ++ [a, b]) ++ rest) = lines ++ cut a b rest := by
  induction lines with
  | nil => simp
  | cons l lines ih =>
    simp only [List.flatMap_cons, List.append_assoc, List.cons_append, List.nil_append]
    rw [cut_append_separator hab (not_infix_of_not_mem (hlines l (by simp)))]
    rw [ih fun m hm => hlines m (by simp [hm])]

theorem cut_lines_of_not_infix (hab : a ≠ b) (lines : List (List α))
    (hlines : ∀ l ∈ lines, ¬ [a, b] <:+: l) (rest : List α) :
    cut a b (lines.flatMap (· ++ [a, b]) ++ rest) = lines ++ cut a b rest := by
  induction lines with
  | nil => simp
  | cons l lines ih =>
    obtain ⟨hl, hlines⟩ := List.forall_mem_cons.mp hlines
    simp only [List.flatMap_cons, List.append_assoc, List.cons_append, List.nil_append]
    rw [cut_append_separator hab hl, ih hlines]

theorem position_append {l : List α} {i : Nat} (h : position a b l = some i) (rest : List α) :
    position a b (l ++ rest) = some i := by
  induction l using position.induct a b generalizing i with
  | case1 => cases h
  | case2 _ => cases h
  | case3 x y l hxy =>
    rw [position, if_pos hxy] at h
    rw [List.cons_append, List.cons_append, position, if_pos hxy]
    exact h
  | case4 x y l hxy ih =>
    rw [position, if_neg hxy, Option.map_eq_some_iff] at h
    obtain ⟨j, hj, rfl⟩ := h
    have hrest := ih hj
    rw [List.cons_append] at hrest
    rw [List.cons_append, List.cons_append, position, if_neg hxy, hrest]
    rfl

theorem take_append_of_position {s : List α} {i : Nat} (h : position a b s = some i) :
    s.take i ++ a :: b :: s.drop (i + 2) = s := by
  induction s using position.induct a b generalizing i with
  | case1 => cases h
  | case2 _ => cases h
  | case3 x y rest hxy =>
    rw [position, if_pos hxy] at h
    cases h
    obtain ⟨rfl, rfl⟩ := hxy
    rfl
  | case4 x y rest hxy ih =>
    rw [position, if_neg hxy, Option.map_eq_some_iff] at h
    obtain ⟨j, hj, rfl⟩ := h
    rw [List.take_succ_cons, List.drop_succ_cons, List.cons_append, ih hj]

theorem position_le {s : List α} {i j : Nat} (h : position a b s = some i)
    (hj : [a, b] <+: s.drop j) : i ≤ j := by
  induction s using position.induct a b generalizing i j with
  | case1 => cases h
  | case2 _ => cases h
  | case3 x y rest hxy =>
    rw [position, if_pos hxy] at h
    cases h
    exact Nat.zero_le j
  | case4 x y rest hxy ih =>
    rw [position, if_neg hxy, Option.map_eq_some_iff] at h
    obtain ⟨k, hk, rfl⟩ := h
    cases j with
    | zero =>
      obtain ⟨rfl, hrest⟩ := List.cons_prefix_cons.mp hj
      exact absurd ⟨rfl, (List.cons_prefix_cons.mp hrest).1.symm⟩ hxy
    | succ j => exact Nat.succ_le_succ (ih hk hj)

/-- Two separators do not overlap. -/
theorem eq_or_behind_position (hab : a ≠ b) {s : List α} {i j : Nat}
    (h : position a b s = some i) (hj : [a, b] <+: s.drop j) : j = i ∨ i + 2 ≤ j := by
  have hle := position_le h hj
  have hne : j ≠ i + 1 := by
    rintro rfl
    have hlt := position_lt h
    have hdrop : s.drop (i + 1) = b :: s.drop (i + 2) := by
      have hlength : (s.take i).length = i := List.length_take_of_le (by omega)
      nth_rewrite 1 [← take_append_of_position h]
      rw [List.drop_append, hlength, List.drop_of_length_le (by omega)]
      simp
    rw [hdrop] at hj
    exact hab (List.cons_prefix_cons.mp hj).1
  omega

/-- The first piece holds no separator. -/
theorem not_infix_take {s : List α} {i : Nat} (h : position a b s = some i) :
    ¬ [a, b] <:+: s.take i := by
  cases hfront : position a b (s.take i) with
  | none => exact position_eq_none_iff.mp hfront
  | some k =>
    have hlt := position_lt hfront
    have hwhole := position_append hfront (s.drop i)
    rw [List.take_append_drop, h] at hwhole
    cases hwhole
    rw [List.length_take] at hlt
    omega

/-- A sequence is empty, a single piece, or a piece in front of a separator and a shorter sequence. -/
theorem position_induction {P : List α → Prop} (hnil : P [])
    (hlast : ∀ s, s ≠ [] → position a b s = none → P s)
    (hnext : ∀ s i, position a b s = some i → P (s.drop (i + 2)) → P s) (s : List α) : P s := by
  induction hlength : s.length using Nat.strongRecOn generalizing s with
  | ind n ih =>
    cases hposition : position a b s with
    | none =>
      rcases Decidable.em (s = []) with rfl | hs
      · exact hnil
      · exact hlast s hs hposition
    | some i =>
      have hlt := position_lt hposition
      refine hnext s i hposition (ih (s.drop (i + 2)).length ?_ _ rfl)
      rw [List.length_drop]
      omega

theorem not_infix_of_mem_cut (s : List α) : ∀ p ∈ cut a b s, ¬ [a, b] <:+: p := by
  induction s using position_induction (a := a) (b := b) with
  | hnil => exact List.forall_mem_nil _
  | hlast s hs hnone =>
    rw [cut_of_position_none hs hnone, List.forall_mem_singleton]
    exact position_eq_none_iff.mp hnone
  | hnext s i hposition ih =>
    rw [cut_of_position_some hposition, List.forall_mem_cons]
    exact ⟨not_infix_take hposition, ih⟩

/-- The pieces make up the sequence, with a separator between them and behind the last one when the
sequence ends in it. -/
theorem intercalate_cut (hab : a ≠ b) (s : List α) :
    [a, b].intercalate (cut a b s) ++ (if [a, b] <:+ s then [a, b] else []) = s := by
  induction s using position_induction (a := a) (b := b) with
  | hnil => simp
  | hlast s hs hnone =>
    have hsuffix : ¬ [a, b] <:+ s := fun h => position_eq_none_iff.mp hnone h.isInfix
    rw [cut_of_position_none hs hnone, if_neg hsuffix, List.intercalate_singleton, List.append_nil]
  | hnext s i hposition ih =>
    have hwhole := take_append_of_position hposition
    rw [cut_of_position_some hposition]
    rcases Decidable.em (s.drop (i + 2) = []) with hrest | hrest
    · have hsuffix : [a, b] <:+ s := ⟨s.take i, by rw [← hrest, hwhole]⟩
      rw [if_pos hsuffix, hrest, cut_nil, List.intercalate_singleton]
      rw [hrest] at hwhole
      exact hwhole
    · have hsuffix : [a, b] <:+ s ↔ [a, b] <:+ s.drop (i + 2) :=
        suffix_behind_separator hab hwhole hrest
      rw [List.intercalate_cons_of_ne_nil (cut_ne_nil hrest), List.append_assoc,
        if_congr hsuffix rfl rfl, ih, List.append_assoc]
      exact hwhole

/-- Lines are read back up to the first empty one exactly when none of them holds the separator. -/
theorem takeWhile_cut_eq_iff (hab : a ≠ b) {lines : List (List α)} (hne : ∀ l ∈ lines, l ≠ [])
    (rest : List α) :
    (cut a b (lines.flatMap (· ++ [a, b]) ++ a :: b :: rest)).takeWhile (· ≠ []) = lines ↔
      ∀ l ∈ lines, ¬ [a, b] <:+: l := by
  induction lines with
  | nil => simp
  | cons l lines ih =>
    obtain ⟨hl, hlines⟩ := List.forall_mem_cons.mp hne
    simp only [List.flatMap_cons, List.append_assoc, List.cons_append, List.nil_append]
    rcases Decidable.em ([a, b] <:+: l) with hfound | hfound
    · refine iff_of_false (fun heq => ?_) fun hall => hall l List.mem_cons_self hfound
      cases hp : position a b l with
      | none => exact position_eq_none_iff.mp hp hfound
      | some i =>
        have hlt := position_lt hp
        rw [cut_of_position_some (position_append hp _), List.takeWhile_cons,
          List.take_append_of_le_length (by omega)] at heq
        split at heq
        · have hlength := congrArg List.length (List.cons.inj heq).1
          rw [List.length_take] at hlength
          omega
        · cases heq
    · rw [cut_append_separator hab hfound, List.takeWhile_cons, if_pos (by simpa using hl),
        List.cons.injEq, ih hlines, List.forall_mem_cons]
      simp [hfound]

theorem head_lt_of_infix {s : List α} (h : [a, b] <:+: s) :
    ∃ p ps, cut a b s = p :: ps ∧ p.length + 2 ≤ s.length := by
  cases hp : position a b s with
  | none => exact absurd h (position_eq_none_iff.mp hp)
  | some i =>
    refine ⟨_, _, cut_of_position_some hp, ?_⟩
    have := position_lt hp
    simp only [List.length_take]
    omega

/-- Behind the first piece and its separator stand the other pieces. -/
theorem cut_tail {s p : List α} {ps : List (List α)} (h : cut a b s = p :: ps) :
    ps = cut a b (s.drop (p.length + 2)) ∧ p <+: s := by
  have hs : s ≠ [] := by
    rintro rfl
    cases h
  cases hp : position a b s with
  | none =>
    rw [cut_of_position_none hs hp, List.cons.injEq] at h
    obtain ⟨rfl, rfl⟩ := h
    rw [List.drop_of_length_le (by omega)]
    exact ⟨rfl, List.prefix_refl _⟩
  | some i =>
    have hlt := position_lt hp
    rw [cut_of_position_some hp, List.cons.injEq] at h
    obtain ⟨rfl, rfl⟩ := h
    rw [List.length_take, min_eq_left (by omega)]
    exact ⟨rfl, List.take_prefix _ _⟩

def lines (a b : α) (s : List α) : List (List α × List α) := follow (cut a b s) s

theorem lines_map_fst (s : List α) : (lines a b s).map Prod.fst = cut a b s :=
  follow_map_fst _ _

/-- What is paired with a line is cut into the lines behind it. -/
theorem lines_suffix {s p r : List α} {post : List (List α × List α)}
    (h : (p, r) :: post <:+ lines a b s) : post = lines a b r := by
  unfold lines at h
  generalize hcut : cut a b s = ps at h
  induction ps generalizing s with
  | nil => simp [follow] at h
  | cons q ps ih =>
    obtain ⟨hrest, -⟩ := cut_tail hcut
    rw [follow] at h
    rcases List.suffix_cons_iff.mp h with h | h
    · rw [List.cons.injEq, Prod.mk.injEq] at h
      obtain ⟨⟨-, rfl⟩, rfl⟩ := h
      rw [lines, ← hrest]
    · exact ih hrest.symm h

end Coffee.Library.Cut
