import Mathlib.Algebra.Order.BigOperators.Group.Finset
import Mathlib.Data.Finset.Max
import Mathlib.Data.List.Nodup
import Mathlib.Logic.Relation

/-! # Locks taken one inside the other

Each thread takes its locks one inside the other and gives them back in the reverse order. A step is
a step of one thread, so whatever the steps lead to is any interleaving of them. The rules say which
lock may be asked for inside which others, and which locks may get lost: whoever takes such a lock
may leave it taken for good.
-/

namespace Coffee.Library

/-- The lock a thread took last stands in front. -/
@[ext]
structure Locks (ι κ : Type*) where
  held : ι → List κ
  wanted : ι → Option κ
  lost : Set κ

namespace Locks

variable {ι κ : Type*}

structure Rules (κ : Type*) where
  allows : List κ → κ → Prop
  loses : κ → Prop
  allows_tail : ∀ {held l want}, allows (l :: held) want → allows held l

def Rules.any : Rules κ where
  allows _ _ := True
  loses _ := True
  allows_tail _ := trivial

def idle : Locks ι κ := ⟨fun _ => [], fun _ => none, ∅⟩

def Free (s : Locks ι κ) (l : κ) : Prop := l ∉ s.lost ∧ ∀ t, l ∉ s.held t

variable [DecidableEq ι]

def put (s : Locks ι κ) (t : ι) (held : List κ) (wanted : Option κ) : Locks ι κ :=
  { s with
    held := Function.update s.held t held
    wanted := Function.update s.wanted t wanted }

def lose (s : Locks ι κ) (l : κ) : Locks ι κ := { s with lost := insert l s.lost }

inductive Step (r : Rules κ) (s : Locks ι κ) : Locks ι κ → Prop
  | ask {t l} (hrest : s.wanted t = none) (hallows : r.allows (s.held t) l) :
    Step r s (s.put t (s.held t) (some l))
  | take {t l} (hwanted : s.wanted t = some l) (hfree : s.Free l) :
    Step r s (s.put t (l :: s.held t) none)
  | lose {t l} (hwanted : s.wanted t = some l) (hfree : s.Free l) (hloses : r.loses l) :
    Step r s ((s.put t (s.held t) none).lose l)
  | release {t l rest} (hrest : s.wanted t = none) (hheld : s.held t = l :: rest) :
    Step r s (s.put t rest none)

def Reaches (r : Rules κ) : Locks ι κ → Locks ι κ → Prop := Relation.ReflTransGen (Step r)

/-- The thread waits for a lock, and goes on waiting in whatever comes. -/
def Stuck (r : Rules κ) (s : Locks ι κ) (t : ι) : Prop := ∀ s', Reaches r s s' → s'.wanted t ≠ none

variable {r : Rules κ} {s s' : Locks ι κ} {t u : ι} {l : κ} {held : List κ} {wanted : Option κ}

@[simp] theorem put_held : (s.put t held wanted).held u = if u = t then held else s.held u :=
  Function.update_apply ..

@[simp] theorem put_wanted :
    (s.put t held wanted).wanted u = if u = t then wanted else s.wanted u :=
  Function.update_apply ..

@[simp] theorem put_lost : (s.put t held wanted).lost = s.lost := rfl

theorem put_put (s : Locks ι κ) (t : ι) (held : List κ) (wanted : Option κ) {held' : List κ}
    {wanted' : Option κ} : (s.put t held wanted).put t held' wanted' = s.put t held' wanted' := by
  simp [put]

omit [DecidableEq ι] in
@[simp] theorem lose_held : (s.lose l).held = s.held := rfl

omit [DecidableEq ι] in
@[simp] theorem lose_wanted : (s.lose l).wanted = s.wanted := rfl

omit [DecidableEq ι] in
@[simp] theorem lose_lost : (s.lose l).lost = insert l s.lost := rfl

theorem put_self (hheld : s.held t = held) (hwanted : s.wanted t = wanted) :
    s.put t held wanted = s := by
  subst hheld hwanted
  simp [put]

theorem free_put : (s.put t held wanted).Free l ↔
    l ∉ s.lost ∧ l ∉ held ∧ ∀ u, u ≠ t → l ∉ s.held u := by
  constructor
  · intro h
    refine ⟨h.1, by simpa using h.2 t, fun u hne => ?_⟩
    simpa [hne] using h.2 u
  · rintro ⟨hlost, hheld, hothers⟩
    refine ⟨hlost, fun u => ?_⟩
    rw [put_held]
    split
    next => exact hheld
    next hne => exact hothers u hne

theorem Step.ask_put (hallows : r.allows held l) :
    Step r (s.put t held none) (s.put t held (some l)) := by
  have hask : Step r (s.put t held none)
      ((s.put t held none).put t ((s.put t held none).held t) (some l)) :=
    .ask (by simp) (by simpa using hallows)
  simpa [put_put] using hask

theorem Step.take_put (hfree : (s.put t held (some l)).Free l) :
    Step r (s.put t held (some l)) (s.put t (l :: held) none) := by
  have htake : Step r (s.put t held (some l))
      ((s.put t held (some l)).put t (l :: (s.put t held (some l)).held t) none) :=
    .take (by simp) hfree
  simpa [put_put] using htake

theorem Step.lose_put (hfree : (s.put t held (some l)).Free l) (hloses : r.loses l) :
    Step r (s.put t held (some l)) ((s.lose l).put t held none) := by
  have hlose : Step r (s.put t held (some l))
      (((s.put t held (some l)).put t ((s.put t held (some l)).held t) none).lose l) :=
    .lose (by simp) hfree hloses
  rw [put_put] at hlose
  rwa [put_held, if_pos rfl] at hlose

theorem Step.release_put : Step r (s.put t (l :: held) none) (s.put t held none) := by
  have hrelease : Step r (s.put t (l :: held) none) ((s.put t (l :: held) none).put t held none) :=
    .release (l := l) (by simp) (by simp)
  rwa [put_put] at hrelease

/-- No lock is held twice, and a lost one is not held at all. -/
structure Sound (r : Rules κ) (s : Locks ι κ) : Prop where
  nodup : ∀ t, (s.held t).Nodup
  apart : ∀ t u l, l ∈ s.held t → l ∈ s.held u → t = u
  allowed : ∀ t l, s.wanted t = some l → r.allows (s.held t) l
  lost : ∀ l ∈ s.lost, r.loses l ∧ (∃ held, r.allows held l) ∧ ∀ t, l ∉ s.held t

omit [DecidableEq ι] in
theorem sound_idle : (idle : Locks ι κ).Sound r where
  nodup _ := List.nodup_nil
  apart t u l h := by cases h
  allowed t l h := by cases h
  lost l h := by cases h

theorem Sound.shrink (h : s.Sound r) (hheld : held <:+ s.held t)
    (hwanted : ∀ l, wanted = some l → r.allows held l) : (s.put t held wanted).Sound r where
  nodup u := by
    rw [put_held]
    split
    · exact (h.nodup t).sublist hheld.sublist
    · exact h.nodup u
  apart u v l hu hv := by
    have hold : ∀ w, l ∈ (s.put t held wanted).held w → l ∈ s.held w := by
      intro w hw
      rw [put_held] at hw
      split at hw
      next heq => exact heq ▸ hheld.subset hw
      next => exact hw
    exact h.apart u v l (hold u hu) (hold v hv)
  allowed u l hu := by
    rw [put_wanted] at hu
    rw [put_held]
    split at hu
    next heq =>
      rw [if_pos heq]
      exact hwanted l hu
    next hne =>
      rw [if_neg hne]
      exact h.allowed u l hu
  lost l hl := by
    obtain ⟨hloses, hallows, hfree⟩ := h.lost l hl
    refine ⟨hloses, hallows, fun u hu => ?_⟩
    rw [put_held] at hu
    split at hu
    next => exact hfree t (hheld.subset hu)
    next => exact hfree u hu

theorem Sound.take (h : s.Sound r) (hfree : s.Free l) :
    (s.put t (l :: s.held t) none).Sound r where
  nodup u := by
    rw [put_held]
    split
    · exact List.nodup_cons.mpr ⟨hfree.2 t, h.nodup t⟩
    · exact h.nodup u
  apart u v l' hu hv := by
    rw [put_held] at hu hv
    split at hu <;> split at hv
    next hut hvt => exact hut.trans hvt.symm
    next hut _ =>
      rcases List.mem_cons.mp hu with rfl | hu
      · exact absurd hv (hfree.2 v)
      · exact hut.trans (h.apart t v l' hu hv)
    next _ hvt =>
      rcases List.mem_cons.mp hv with rfl | hv
      · exact absurd hu (hfree.2 u)
      · exact (h.apart u t l' hu hv).trans hvt.symm
    next => exact h.apart u v l' hu hv
  allowed u l' hu := by
    rw [put_wanted] at hu
    rw [put_held]
    split at hu
    next => cases hu
    next hne =>
      rw [if_neg hne]
      exact h.allowed u l' hu
  lost l' hl := by
    obtain ⟨hloses, hallows, hout⟩ := h.lost l' hl
    refine ⟨hloses, hallows, fun u hu => ?_⟩
    rw [put_held] at hu
    split at hu
    next =>
      rcases List.mem_cons.mp hu with rfl | hu
      · exact hfree.1 hl
      · exact hout t hu
    next => exact hout u hu

theorem Sound.step (h : s.Sound r) (hstep : Step r s s') : s'.Sound r := by
  cases hstep with
  | ask hrest hallows =>
    refine h.shrink (List.suffix_refl _) fun l hl => ?_
    cases hl
    exact hallows
  | take hwanted hfree => exact h.take hfree
  | release hrest hheld =>
    refine h.shrink ?_ fun l hl => by cases hl
    rw [hheld]
    exact List.suffix_cons _ _
  | @lose t l hwanted hfree hloses =>
    have hput : (s.put t (s.held t) none).Sound r :=
      h.shrink (List.suffix_refl _) fun l hl => by cases hl
    refine ⟨hput.nodup, hput.apart, hput.allowed, fun l' hl => ?_⟩
    rcases hl with rfl | hl
    · refine ⟨hloses, ⟨_, h.allowed t l' hwanted⟩, fun u hu => ?_⟩
      rw [lose_held, put_held] at hu
      split at hu
      next => exact hfree.2 t hu
      next => exact hfree.2 u hu
    · exact hput.lost l' hl

theorem Sound.reaches (h : s.Sound r) (hs : Reaches r s s') : s'.Sound r := by
  induction hs with
  | refl => exact h
  | tail _ hstep ih => exact ih.step hstep

theorem Stuck.reaches (h : Stuck r s t) (hs : Reaches r s s') : Stuck r s' t :=
  fun _ hs' => h _ (hs.trans hs')

/-- What every step keeps while a thread waits in it leaves that thread stuck. -/
theorem Stuck.of_invariant (Inv : Locks ι κ → Prop) (hwaits : ∀ s, Inv s → s.wanted t ≠ none)
    (hstep : ∀ s s', Inv s → Step r s s' → Inv s') (h : Inv s) : Stuck r s t := by
  intro s' hs
  refine hwaits s' ?_
  induction hs with
  | refl => exact h
  | tail _ hlast ih => exact hstep _ _ ih hlast

/-- Threads that each ask for a lock another one of them holds, with no lock in common. -/
structure Knot (ι : Type*) (r : Rules κ) where
  members : Finset ι
  held : ι → List κ
  wanted : ι → κ
  nonempty : members.Nonempty
  allowed : ∀ t ∈ members, r.allows (held t) (wanted t)
  apart : ∀ t ∈ members, ∀ u ∈ members, t ≠ u → (held t).Disjoint (held u)
  closed : ∀ t ∈ members, ∃ u ∈ members, wanted t ∈ held u

section Stuck

variable [Fintype ι]

def total (s : Locks ι κ) : ℕ := ∑ t, (s.held t).length

theorem total_lt (h : held.length < (s.held t).length) : (s.put t held wanted).total < s.total := by
  refine Finset.sum_lt_sum (fun u _ => ?_) ⟨t, Finset.mem_univ t, ?_⟩
  · rw [put_held]
    split
    next heq => exact heq ▸ h.le
    next => exact le_rfl
  · simpa using h

/-- Wherever as few locks are held as can be, a thread that holds one waits for one that is taken. -/
theorem waits_of_least (hleast : ∀ s', Reaches r s s' → ¬ s'.total < s.total)
    (hheld : s.held t ≠ []) : ∃ l, s.wanted t = some l ∧ ¬ s.Free l := by
  obtain ⟨l', rest, hcons⟩ := List.exists_cons_of_ne_nil hheld
  cases hwanted : s.wanted t with
  | none =>
    have hrelease : Step r s (s.put t rest none) := .release hwanted hcons
    exact absurd (total_lt (by simp [hcons])) (hleast _ (.single hrelease))
  | some l =>
    refine ⟨l, rfl, fun hfree => ?_⟩
    have htake : Step r s (s.put t (l :: s.held t) none) := .take hwanted hfree
    have hback : Step r (s.put t (l :: s.held t) none) (s.put t (s.held t) none) := .release_put
    have hrelease : Step r (s.put t (s.held t) none) (s.put t rest none) := by
      rw [hcons]
      exact .release_put
    have hreaches : Reaches r s (s.put t rest none) :=
      .tail (.tail (.single htake) hback) hrelease
    exact absurd (total_lt (by simp [hcons])) (hleast _ hreaches)

theorem knot_of_stuck (hs : s.Sound r) (hlost : ∀ held l, r.allows held l → ¬ r.loses l)
    (h : Stuck r s t) : Nonempty (Knot ι r) := by
  classical
  obtain ⟨s', hs', hmin⟩ := (measure (total (ι := ι) (κ := κ))).wf.has_min
    {s' | Reaches r s s'} ⟨s, .refl⟩
  have hsound := hs.reaches hs'
  have hstuck := h.reaches hs'
  have hleast : ∀ s'', Reaches r s' s'' → ¬ s''.total < s'.total :=
    fun s'' hs'' => hmin s'' (hs'.trans hs'')
  have htaken : ∀ l, ¬ s'.Free l → ∃ u, l ∈ s'.held u := by
    intro l hl
    by_contra hnone
    refine hl ⟨fun hlost' => ?_, not_exists.mp hnone⟩
    obtain ⟨hloses, ⟨held, hallows⟩, -⟩ := hsound.lost l hlost'
    exact hlost held l hallows hloses
  have hwaits : ∀ u, u = t ∨ s'.held u ≠ [] → ∃ l, s'.wanted u = some l ∧ ¬ s'.Free l := by
    rintro u (rfl | hheld)
    · obtain ⟨l, hl⟩ := Option.ne_none_iff_exists'.mp (hstuck s' .refl)
      refine ⟨l, hl, fun hfree => ?_⟩
      exact hstuck _ (.single (.take hl hfree)) (by simp)
    · exact waits_of_least hleast hheld
  obtain ⟨l, -, -⟩ := hwaits t (.inl rfl)
  refine ⟨{
    members := Finset.univ.filter fun u => u = t ∨ s'.held u ≠ []
    held := s'.held
    wanted := fun u => (s'.wanted u).getD l
    nonempty := ⟨t, by simp⟩
    allowed := fun u hu => ?_
    apart := fun u _ v _ hne => ?_
    closed := fun u hu => ?_ }⟩
  · obtain ⟨l', hwanted, -⟩ := hwaits u (by simpa using hu)
    rw [hwanted]
    exact hsound.allowed u l' hwanted
  · exact fun l' hu hv => hne (hsound.apart u v l' hu hv)
  · obtain ⟨l', hwanted, hfree⟩ := hwaits u (by simpa using hu)
    obtain ⟨v, hv⟩ := htaken l' hfree
    refine ⟨v, ?_, ?_⟩
    · simpa using Or.inr (List.ne_nil_of_mem hv)
    · simpa [hwanted] using hv

end Stuck

/-- A thread at rest takes whatever it may take, as long as all of it is free. -/
theorem takes_all (hrest : s.wanted t = none) (hnone : s.held t = []) (hallows : r.allows held l)
    (hnodup : held.Nodup) (hfree : ∀ l ∈ held, s.Free l) : Reaches r s (s.put t held none) := by
  induction held generalizing l with
  | nil =>
    rw [put_self hnone hrest]
    exact .refl
  | cons l' rest ih =>
    obtain ⟨hfresh, hnodup⟩ := List.nodup_cons.mp hnodup
    have hbefore := ih (r.allows_tail hallows) hnodup fun l hl => hfree l (.tail _ hl)
    have hask : Step r (s.put t rest none) (s.put t rest (some l')) :=
      .ask_put (r.allows_tail hallows)
    have hfirst := hfree l' List.mem_cons_self
    have htake : Step r (s.put t rest (some l')) (s.put t (l' :: rest) none) :=
      .take_put (free_put.mpr ⟨hfirst.1, hfresh, fun u _ => hfirst.2 u⟩)
    exact .tail (.tail hbefore hask) htake

namespace Knot

/-- Nobody in the knot asks for a lock twice. -/
def Plain (K : Knot ι r) : Prop := ∀ t ∈ K.members, (K.held t).Nodup

omit [DecidableEq ι] in
theorem exists_plain_of_mem (t : ι) (hallows : r.allows held l) (hmem : l ∈ held)
    (hnodup : held.Nodup) : ∃ K : Knot ι r, K.Plain := by
  refine ⟨{
    members := {t}
    held := fun _ => held
    wanted := fun _ => l
    nonempty := Finset.singleton_nonempty t
    allowed := fun _ _ => hallows
    apart := fun u hu v hv hne => ?_
    closed := fun _ _ => ⟨t, Finset.mem_singleton_self t, hmem⟩ }, fun _ _ => hnodup⟩
  rw [Finset.mem_singleton] at hu hv
  exact absurd (hu.trans hv.symm) hne

omit [DecidableEq ι] in
/-- A thread that asks for a lock it holds is a knot of its own. -/
theorem exists_plain_of_dup (t : ι) (hallows : r.allows held l) (hdup : ¬ (l :: held).Nodup) :
    ∃ K : Knot ι r, K.Plain := by
  induction held generalizing l with
  | nil => exact absurd (List.nodup_singleton l) hdup
  | cons l' rest ih =>
    by_cases hnodup : (l' :: rest).Nodup
    · have hmem : l ∈ l' :: rest := by
        by_contra hfresh
        exact hdup (List.nodup_cons.mpr ⟨hfresh, hnodup⟩)
      exact exists_plain_of_mem t hallows hmem hnodup
    · exact ih (r.allows_tail hallows) hnodup

omit [DecidableEq ι] in
theorem exists_plain (K : Knot ι r) : ∃ K : Knot ι r, K.Plain := by
  by_cases hplain : K.Plain
  · exact ⟨K, hplain⟩
  · simp only [Plain, not_forall] at hplain
    obtain ⟨t, ht, hdup⟩ := hplain
    exact exists_plain_of_dup t (K.allowed t ht) fun h => hdup h.of_cons

variable (K : Knot ι r)

/-- The threads of `E` are where the knot has them, and the others are at rest. -/
def tied (E : Finset ι) : Locks ι κ where
  held t := if t ∈ E then K.held t else []
  wanted t := if t ∈ E then some (K.wanted t) else none
  lost := ∅

variable {K}

theorem reaches_tied (hplain : K.Plain) {E : Finset ι} (hE : E ⊆ K.members) :
    Reaches r idle (K.tied E) := by
  induction E using Finset.induction_on with
  | empty => exact .refl
  | insert t E hfresh ih =>
    obtain ⟨ht, hE⟩ := Finset.insert_subset_iff.mp hE
    have hallowed := K.allowed t ht
    have hfree : ∀ l ∈ K.held t, (K.tied E).Free l := by
      refine fun l hl => ⟨fun h => h, fun u hu => ?_⟩
      simp only [tied] at hu
      split at hu
      next hmem => exact K.apart t ht u (hE hmem) (fun h => hfresh (h ▸ hmem)) hl hu
      next => cases hu
    have htakes : Reaches r (K.tied E) ((K.tied E).put t (K.held t) none) :=
      takes_all (if_neg hfresh) (if_neg hfresh) hallowed (hplain t ht) hfree
    have htied : (K.tied E).put t (K.held t) (some (K.wanted t)) = K.tied (insert t E) := by
      refine Locks.ext (funext fun u => ?_) (funext fun u => ?_) rfl
      · by_cases hu : u = t <;> simp [tied, hu]
      · by_cases hu : u = t <;> simp [tied, hu]
    rw [← htied]
    exact .tail ((ih hE).trans htakes) (.ask_put hallowed)

theorem stuck_tied (ht : t ∈ K.members) : Stuck r (K.tied K.members) t := by
  refine .of_invariant (fun s => ∀ u ∈ K.members, s.held u = K.held u ∧
    s.wanted u = some (K.wanted u)) (fun s h => ?_) (fun s s' h hstep => ?_) fun u hu => ?_
  · rw [(h t ht).2]
    exact Option.some_ne_none _
  · have hput : ∀ u held wanted, u ∉ K.members → ∀ v ∈ K.members,
        (s.put u held wanted).held v = K.held v ∧
          (s.put u held wanted).wanted v = some (K.wanted v) := by
      intro u held wanted hu v hv
      have hne : v ≠ u := fun heq => hu (heq ▸ hv)
      simpa [hne] using h v hv
    have hrest : ∀ u, s.wanted u = none → u ∉ K.members := by
      intro u hu hmem
      rw [(h u hmem).2] at hu
      cases hu
    have hblocked : ∀ u l, s.wanted u = some l → s.Free l → u ∉ K.members := by
      intro u l hu hfree hmem
      rw [(h u hmem).2] at hu
      cases hu
      obtain ⟨v, hv, hheld⟩ := K.closed u hmem
      rw [← (h v hv).1] at hheld
      exact hfree.2 v hheld
    cases hstep with
    | ask hwanted => exact hput _ _ _ (hrest _ hwanted)
    | take hwanted hfree => exact hput _ _ _ (hblocked _ _ hwanted hfree)
    | lose hwanted hfree => exact hput _ _ _ (hblocked _ _ hwanted hfree)
    | release hwanted => exact hput _ _ _ (hrest _ hwanted)
  · simp [tied, hu]

end Knot

theorem exists_stuck_of_loses (t : ι) (hallows : r.allows held l) (hloses : r.loses l)
    (hnodup : (l :: held).Nodup) : ∃ s, Reaches r idle s ∧ Stuck r s t := by
  obtain ⟨hfresh, hnodup⟩ := List.nodup_cons.mp hnodup
  have hfree : ∀ l, (idle : Locks ι κ).Free l := fun l => ⟨fun h => h, fun u hu => by cases hu⟩
  have htakes : Reaches r idle (put idle t held none) :=
    takes_all rfl rfl hallows hnodup fun l _ => hfree l
  have hlose : Step r (put idle t held (some l)) ((lose idle l).put t held none) :=
    .lose_put (free_put.mpr ⟨(hfree l).1, hfresh, fun u _ => (hfree l).2 u⟩) hloses
  refine ⟨(lose idle l).put t held (some l),
    .tail (.tail (.tail htakes (.ask_put hallows)) hlose) (.ask_put hallows), ?_⟩
  refine .of_invariant (fun s => s.wanted t = some l ∧ l ∈ s.lost) (fun s h => ?_)
    (fun s s' h hstep => ?_) ⟨by simp, Set.mem_insert l ∅⟩
  · rw [h.1]
    exact Option.some_ne_none _
  · have hput : ∀ u held wanted, u ≠ t →
        (s.put u held wanted).wanted t = some l ∧ l ∈ (s.put u held wanted).lost := by
      intro u held wanted hne
      simpa [hne.symm] using h
    have hrest : ∀ u, s.wanted u = none → u ≠ t := by
      rintro u hu rfl
      rw [h.1] at hu
      cases hu
    have hblocked : ∀ u l', s.wanted u = some l' → s.Free l' → u ≠ t := by
      rintro u l' hu hfree rfl
      rw [h.1] at hu
      cases hu
      exact hfree.1 h.2
    cases hstep with
    | ask hwanted => exact hput _ _ _ (hrest _ hwanted)
    | take hwanted hfree => exact hput _ _ _ (hblocked _ _ hwanted hfree)
    | release hwanted => exact hput _ _ _ (hrest _ hwanted)
    | lose hwanted hfree =>
      obtain ⟨hwaits, hlost⟩ := hput _ (s.held _) none (hblocked _ _ hwanted hfree)
      exact ⟨hwaits, Set.mem_insert_of_mem _ hlost⟩

/-- A thread can get stuck just when some threads can tie a knot, or a lock can get lost. -/
theorem exists_stuck_iff [Fintype ι] : (∃ s, Reaches r (idle : Locks ι κ) s ∧ ∃ t, Stuck r s t) ↔
    Nonempty (Knot ι r) ∨ Nonempty ι ∧ ∃ held l, r.allows held l ∧ r.loses l := by
  have hplain : (∃ K : Knot ι r, K.Plain) →
      ∃ s, Reaches r (idle : Locks ι κ) s ∧ ∃ t, Stuck r s t := by
    rintro ⟨K, hplain⟩
    obtain ⟨t, ht⟩ := K.nonempty
    exact ⟨K.tied K.members, Knot.reaches_tied hplain (Finset.Subset.refl _), t, Knot.stuck_tied ht⟩
  constructor
  · rintro ⟨s, hs, t, hstuck⟩
    by_cases hlost : ∃ held l, r.allows held l ∧ r.loses l
    · exact .inr ⟨⟨t⟩, hlost⟩
    · refine .inl (knot_of_stuck (sound_idle.reaches hs) (fun held l hallows hloses => ?_) hstuck)
      exact hlost ⟨held, l, hallows, hloses⟩
  · rintro (⟨⟨K⟩⟩ | ⟨⟨t⟩, held, l, hallows, hloses⟩)
    · exact hplain K.exists_plain
    · by_cases hnodup : (l :: held).Nodup
      · obtain ⟨s, hs, hstuck⟩ := exists_stuck_of_loses t hallows hloses hnodup
        exact ⟨s, hs, t, hstuck⟩
      · exact hplain (Knot.exists_plain_of_dup t hallows hnodup)

/-- A lock is free, or a gate stands in front of it that a thread passes first and that lets one
thread through at a time. The locks without a gate are taken in one order. -/
structure Rules.Ordered {α : Type*} [LT α] (r : Rules κ) (gate : κ → Option κ) (rank : κ → α) :
    Prop where
  gated : ∀ held l g, r.allows held l → gate l = some g → g ∈ held ∧ l ∉ held
  ranked : ∀ held l, r.allows held l → gate l = none → ∀ l' ∈ held, gate l' = none →
    rank l' < rank l

omit [DecidableEq ι] in
theorem Rules.gate_mem {gate : κ → Option κ} {g : κ}
    (hgated : ∀ held l g, r.allows held l → gate l = some g → g ∈ held ∧ l ∉ held)
    (hallows : r.allows held l) {l' : κ} (hmem : l' ∈ held) (hgate : gate l' = some g) :
    g ∈ held := by
  induction held generalizing l with
  | nil => cases hmem
  | cons first rest ih =>
    have hinner := r.allows_tail hallows
    rcases List.mem_cons.mp hmem with rfl | hmem
    · exact .tail _ (hgated _ _ _ hinner hgate).1
    · exact .tail _ (ih hinner hmem)

omit [DecidableEq ι] in
theorem Rules.Ordered.isEmpty_knot {α : Type*} [LinearOrder α] {gate : κ → Option κ} {rank : κ → α}
    (h : r.Ordered gate rank) : IsEmpty (Knot ι r) := by
  refine ⟨fun K => ?_⟩
  have hopen : ∀ t ∈ K.members, gate (K.wanted t) = none := by
    intro t ht
    by_contra hgate
    obtain ⟨g, hgate⟩ := Option.ne_none_iff_exists'.mp hgate
    obtain ⟨hg, hfresh⟩ := h.gated _ _ _ (K.allowed t ht) hgate
    obtain ⟨u, hu, hmem⟩ := K.closed t ht
    have hother := Rules.gate_mem h.gated (K.allowed u hu) hmem hgate
    by_cases htu : t = u
    · exact hfresh (htu ▸ hmem)
    · exact K.apart t ht u hu htu hg hother
  obtain ⟨t, ht, hmax⟩ := K.members.exists_max_image (fun t => rank (K.wanted t)) K.nonempty
  obtain ⟨u, hu, hmem⟩ := K.closed t ht
  have hlt := h.ranked _ _ (K.allowed u hu) (hopen u hu) _ hmem (hopen t ht)
  exact absurd (hmax u hu) (not_le.mpr hlt)

section OfLocked

variable (locked : κ → Bool) (holds : ι → List κ) (wants : ι → Option κ)

omit [DecidableEq ι] in
/-- The locks behind some mutexes: one that is locked and that nobody holds is lost. -/
def ofLocked : Locks ι κ := ⟨holds, wants, {l | locked l = true ∧ ∀ t, l ∉ holds t}⟩

variable {locked holds wants}

omit [DecidableEq ι] in
theorem free_ofLocked (htaken : ∀ t, ∀ l ∈ holds t, locked l = true) :
    (ofLocked locked holds wants).Free l ↔ locked l = false := by
  constructor
  · intro h
    by_contra hlocked
    exact h.1 ⟨by simpa using hlocked, h.2⟩
  · intro h
    have hfree : ∀ t, l ∉ holds t := by
      intro t hl
      rw [htaken t l hl] at h
      cases h
    exact ⟨fun hlost => absurd hlost.1 (by simp [h]), hfree⟩

theorem ofLocked_ask : ofLocked locked holds (Function.update wants t (some l)) =
    (ofLocked locked holds wants).put t (holds t) (some l) := by
  simp [ofLocked, put]

variable [DecidableEq κ]

theorem ofLocked_take (hfree : locked l = false) :
    ofLocked (Function.update locked l true) (Function.update holds t (l :: holds t))
        (Function.update wants t none) =
      (ofLocked locked holds wants).put t (l :: holds t) none := by
  refine Locks.ext rfl rfl (Set.ext fun l' => ?_)
  constructor
  · rintro ⟨hlocked, hout⟩
    have hne : l' ≠ l := by
      rintro rfl
      exact hout t (by simp)
    refine ⟨by simpa [hne] using hlocked, fun u hu => hout u ?_⟩
    rw [Function.update_apply]
    split
    next heq => exact .tail _ (heq ▸ hu)
    next => exact hu
  · rintro ⟨hlocked, hout⟩
    have hne : l' ≠ l := by
      rintro rfl
      rw [hfree] at hlocked
      cases hlocked
    refine ⟨by simpa [hne] using hlocked, fun u hu => ?_⟩
    rw [Function.update_apply] at hu
    split at hu
    next => exact hout t ((List.mem_cons.mp hu).resolve_left hne)
    next => exact hout u hu

theorem ofLocked_lose (htaken : ∀ t, ∀ l ∈ holds t, locked l = true) (hfree : locked l = false) :
    ofLocked (Function.update locked l true) holds (Function.update wants t none) =
      ((ofLocked locked holds wants).put t (holds t) none).lose l := by
  have hout : ∀ t, l ∉ holds t := fun t hl => by
    rw [htaken t l hl] at hfree
    cases hfree
  refine Locks.ext (by simp [ofLocked, put, lose]) rfl (Set.ext fun l' => ?_)
  by_cases hne : l' = l
  · subst hne
    exact iff_of_true ⟨by simp, hout⟩ (Set.mem_insert _ _)
  · simp [ofLocked, hne]

theorem ofLocked_release {rest : List κ} (hheld : holds t = l :: rest) :
    ofLocked (Function.update locked l false) (Function.update holds t rest)
        (Function.update wants t none) =
      (ofLocked locked holds wants).put t rest none := by
  have hmem : l ∈ holds t := hheld ▸ List.mem_cons_self
  refine Locks.ext rfl rfl (Set.ext fun l' => ?_)
  constructor
  · rintro ⟨hlocked, hout⟩
    have hne : l' ≠ l := by
      rintro rfl
      simp at hlocked
    refine ⟨by simpa [hne] using hlocked, fun u hu => hout u ?_⟩
    rw [Function.update_apply]
    split
    next heq =>
      rw [heq, hheld] at hu
      exact (List.mem_cons.mp hu).resolve_left hne
    next => exact hu
  · rintro ⟨hlocked, hout⟩
    have hne : l' ≠ l := by
      rintro rfl
      exact hout t hmem
    refine ⟨by simpa [hne] using hlocked, fun u hu => hout u ?_⟩
    rw [Function.update_apply] at hu
    split at hu
    next heq =>
      rw [heq, hheld]
      exact .tail _ hu
    next => exact hu

end OfLocked

end Locks

end Coffee.Library
