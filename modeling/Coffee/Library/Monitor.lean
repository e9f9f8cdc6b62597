import Mathlib.Algebra.Group.Action.Defs
import Mathlib.Algebra.Order.BigOperators.Group.Finset
import Mathlib.Data.Fintype.Card
import Coffee.Library.Runs

/-! # Threads at one condition variable

Some threads wait until a value is ready, others change the value and notify. A move is one step of
one thread, so a run is any interleaving of them, spurious wake-ups included. A change may take the
mutex (`guarded`) or leave it alone.
-/

namespace Coffee.Library

open Runs

inductive Monitor.Place
  | outside
  | arriving
  | testing
  | refused
  | asleep
  | woken
  | admitted
  | through
  | approaching
  | changing
  | changed
  | notified
  | left
  deriving DecidableEq, Repr

structure Monitor (ι σ : Type*) where
  value : σ
  owner : Option ι
  place : ι → Monitor.Place

namespace Monitor

variable {ι σ : Type*}

structure Protocol (σ : Type*) where
  ready : σ → Bool
  update : σ → σ
  guarded : Bool

inductive Move (ι : Type*)
  | wait (t : ι)
  | change (t : ι)
  | advance (t : ι)
  | wake (t : ι)

def Move.IsCall : Move ι → Prop
  | .wait _ | .change _ => True
  | .advance _ | .wake _ => False

def Place.Resting : Place → Prop
  | .outside | .through | .left => True
  | _ => False

instance : DecidablePred Place.Resting := fun x => by
  cases x <;> simp only [Place.Resting] <;> infer_instance

/-- The thread is in a call that waits, or has come through it. -/
def Place.Waits : Place → Prop
  | .arriving | .testing | .refused | .asleep | .woken | .admitted | .through => True
  | _ => False

def fresh (v : σ) : Monitor ι σ := ⟨v, none, fun _ => .outside⟩

def notifyAll (place : ι → Place) (t : ι) : Place :=
  match place t with
  | .asleep => .woken
  | x => x

variable [DecidableEq ι]

def put (m : Monitor ι σ) (t : ι) (x : Place) : Monitor ι σ :=
  { m with place := Function.update m.place t x }

def locked (m : Monitor ι σ) (t : ι) (x : Place) : Option (Monitor ι σ) :=
  if m.owner.isNone then some { m.put t x with owner := some t } else none

def unlocked (m : Monitor ι σ) (t : ι) (x : Place) : Monitor ι σ := { m.put t x with owner := none }

def announced (m : Monitor ι σ) (t : ι) (x : Place) : Monitor ι σ :=
  { m with place := Function.update (notifyAll m.place) t x }

namespace Protocol

variable (p : Protocol σ)

/-- The next step of one thread. To wait on the condition is to release the mutex and fall asleep at
once, and who wakes up takes the mutex again before it tests. -/
def advance (m : Monitor ι σ) (t : ι) : Option (Monitor ι σ) :=
  match m.place t with
  | .arriving | .woken => m.locked t .testing
  | .testing => some (m.put t (if p.ready m.value then .admitted else .refused))
  | .refused => some (m.unlocked t .asleep)
  | .admitted => some (m.unlocked t .through)
  | .approaching =>
    if p.guarded then m.locked t .changing
    else some { m.put t .changed with value := p.update m.value }
  | .changing => some { m.put t .changed with value := p.update m.value }
  | .changed => some (m.announced t (if p.guarded then .notified else .left))
  | .notified => some (m.unlocked t .left)
  | .outside | .asleep | .through | .left => none

def step (m : Monitor ι σ) : Move ι → Option (Monitor ι σ)
  | .wait t => if (m.place t).Resting then some (m.put t .arriving) else none
  | .change t => if (m.place t).Resting then some (m.put t .approaching) else none
  | .advance t => p.advance m t
  | .wake t => if m.place t = .asleep then some (m.put t .woken) else none

def Holds : Place → Prop
  | .testing | .refused | .admitted | .notified => True
  | .changing | .changed => p.guarded
  | _ => False

/-- Every change makes the value ready, among the values that changes lead to. -/
structure Lasting (Valid : σ → Prop) : Prop where
  keeps : ∀ v, Valid v → Valid (p.update v)
  makes : ∀ v, Valid v → p.ready (p.update v)

variable {p : Protocol σ} {m m' : Monitor ι σ} {t u : ι}

inductive Advances (p : Protocol σ) (m : Monitor ι σ) (t : ι) : Monitor ι σ → Prop
  | lock (h : m.place t = .arriving ∨ m.place t = .woken) (free : m.owner = none) :
    Advances p m t { m.put t .testing with owner := some t }
  | allow (h : m.place t = .testing) (ready : p.ready m.value = true) :
    Advances p m t (m.put t .admitted)
  | refuse (h : m.place t = .testing) (ready : p.ready m.value = false) :
    Advances p m t (m.put t .refused)
  | sleep (h : m.place t = .refused) : Advances p m t (m.unlocked t .asleep)
  | pass (h : m.place t = .admitted) : Advances p m t (m.unlocked t .through)
  | enter (h : m.place t = .approaching) (guarded : p.guarded = true) (free : m.owner = none) :
    Advances p m t { m.put t .changing with owner := some t }
  | update (h : m.place t = .approaching ∧ p.guarded = false ∨ m.place t = .changing) :
    Advances p m t { m.put t .changed with value := p.update m.value }
  | notify (h : m.place t = .changed) :
    Advances p m t (m.announced t (if p.guarded then .notified else .left))
  | leave (h : m.place t = .notified) : Advances p m t (m.unlocked t .left)

theorem mem_locked_iff {x : Place} :
    m' ∈ m.locked t x ↔ m.owner = none ∧ m' = { m.put t x with owner := some t } := by
  cases howner : m.owner <;> simp [locked, howner, eq_comm]

theorem advances (h : m' ∈ p.advance m t) : Advances p m t m' := by
  cases ht : m.place t <;> simp only [advance, ht] at h
  case arriving =>
    obtain ⟨free, rfl⟩ := mem_locked_iff.mp h
    exact .lock (.inl ht) free
  case woken =>
    obtain ⟨free, rfl⟩ := mem_locked_iff.mp h
    exact .lock (.inr ht) free
  case testing =>
    cases hready : p.ready m.value <;> rw [hready] at h <;> cases h
    · exact .refuse ht hready
    · exact .allow ht hready
  case approaching =>
    cases hguarded : p.guarded <;> simp only [hguarded, if_true, Bool.false_eq_true, if_false] at h
    · cases h
      exact .update (.inl ⟨ht, hguarded⟩)
    · obtain ⟨free, rfl⟩ := mem_locked_iff.mp h
      exact .enter ht hguarded free
  all_goals cases h
  case refused => exact .sleep ht
  case admitted => exact .pass ht
  case changing => exact .update (.inr ht)
  case changed => exact .notify ht
  case notified => exact .leave ht

@[simp, grind =] theorem put_place (x : Place) :
    (m.put t x).place u = if u = t then x else m.place u := Function.update_apply ..

@[simp, grind =] theorem put_value (x : Place) : (m.put t x).value = m.value := rfl

@[simp, grind =] theorem put_owner (x : Place) : (m.put t x).owner = m.owner := rfl

@[simp, grind =] theorem unlocked_place (x : Place) :
    (m.unlocked t x).place u = if u = t then x else m.place u := put_place x

@[simp, grind =] theorem unlocked_value (x : Place) : (m.unlocked t x).value = m.value := rfl

@[simp, grind =] theorem unlocked_owner (x : Place) : (m.unlocked t x).owner = none := rfl

@[simp, grind =] theorem announced_place (x : Place) :
    (m.announced t x).place u = if u = t then x else notifyAll m.place u :=
  Function.update_apply ..

@[simp, grind =] theorem announced_value (x : Place) : (m.announced t x).value = m.value := rfl

@[simp, grind =] theorem announced_owner (x : Place) : (m.announced t x).owner = m.owner := rfl

omit [DecidableEq ι] in
@[grind =] theorem notifyAll_eq {place : ι → Place} :
    notifyAll place u = if place u = .asleep then .woken else place u := by
  unfold notifyAll
  split <;> simp_all

omit [DecidableEq ι] in
theorem holds_notifyAll {place : ι → Place} : p.Holds (notifyAll place u) ↔ p.Holds (place u) := by
  unfold notifyAll
  split <;> simp_all [Holds]

/-- The places of the threads, and the owner of the mutex, fit together. -/
structure Consistent (p : Protocol σ) (Valid : σ → Prop) (m : Monitor ι σ) : Prop where
  valid : Valid m.value
  exclusive : ∀ t, p.Holds (m.place t) ↔ m.owner = some t
  changed : ∀ t, m.place t = .changed → p.ready m.value = true
  passed : ∀ t, m.place t = .admitted ∨ m.place t = .through → p.ready m.value = true
  refused : p.guarded = true → ∀ t, m.place t = .refused → p.ready m.value = false
  asleep : p.guarded = true → p.ready m.value = true → ∀ t, m.place t = .asleep →
    ∃ c, m.place c = .changed

variable {Valid : σ → Prop} {op : Move ι}

omit [DecidableEq ι] in
theorem consistent_fresh (p : Protocol σ) {v : σ} (hv : Valid v) :
    Consistent p Valid (fresh v : Monitor ι σ) where
  valid := hv
  exclusive t := by simp [fresh, Holds]
  changed t h := by cases h
  passed t h := by rcases h with h | h <;> cases h
  refused _ t h := by cases h
  asleep _ _ t h := by cases h

theorem step_cases (h : m' ∈ p.step m op) :
    (∃ t x, m' = m.put t x ∧
      (op.IsCall ∧ (m.place t).Resting ∧ (x = .arriving ∨ x = .approaching) ∨
        op = .wake t ∧ m.place t = .asleep ∧ x = .woken)) ∨
    ∃ t, op = .advance t ∧ Advances p m t m' := by
  cases op with
  | wait t =>
    obtain ⟨hrest, h⟩ := Option.ite_none_right_eq_some.mp h
    cases h
    exact .inl ⟨t, _, rfl, .inl ⟨trivial, hrest, .inl rfl⟩⟩
  | change t =>
    obtain ⟨hrest, h⟩ := Option.ite_none_right_eq_some.mp h
    cases h
    exact .inl ⟨t, _, rfl, .inl ⟨trivial, hrest, .inr rfl⟩⟩
  | wake t =>
    obtain ⟨hasleep, h⟩ := Option.ite_none_right_eq_some.mp h
    cases h
    exact .inl ⟨t, _, rfl, .inr ⟨rfl, hasleep, rfl⟩⟩
  | advance t => exact .inr ⟨t, rfl, advances h⟩

theorem value_step (h : m' ∈ p.step m op) : m'.value = m.value ∨ m'.value = p.update m.value := by
  obtain ⟨t, x, rfl, -⟩ | ⟨t, -, h⟩ := step_cases h
  · exact .inl rfl
  · cases h <;> first | exact .inl rfl | exact .inr rfl

theorem ready_step (hp : p.Lasting Valid) (hm : Valid m.value) (h : m' ∈ p.step m op)
    (hready : p.ready m.value = true) : p.ready m'.value = true := by
  rcases value_step h with hv | hv <;> rw [hv]
  · exact hready
  · exact hp.makes _ hm

theorem exclusive_put {x : Place} (h : ∀ u, p.Holds (m.place u) ↔ m.owner = some u)
    (hx : p.Holds x ↔ p.Holds (m.place t)) (u : ι) :
    p.Holds ((m.put t x).place u) ↔ m.owner = some u := by
  rw [put_place]
  split
  next hu => rw [hx, hu, h t]
  next => exact h u

theorem exclusive_lock {x : Place} (h : ∀ u, p.Holds (m.place u) ↔ m.owner = some u)
    (free : m.owner = none) (hx : p.Holds x) (u : ι) :
    p.Holds ((m.put t x).place u) ↔ some t = some u := by
  rw [put_place]
  split
  next hu => simp [hx, hu]
  next hu => simp [h u, free, Ne.symm hu]

theorem exclusive_unlock {x : Place} (h : ∀ u, p.Holds (m.place u) ↔ m.owner = some u)
    (ht : p.Holds (m.place t)) (hx : ¬ p.Holds x) (u : ι) :
    p.Holds ((m.unlocked t x).place u) ↔ (none : Option ι) = some u := by
  have howner := (h t).mp ht
  rw [unlocked_place]
  split
  next => simp [hx]
  next hu => simp [h u, howner, Ne.symm hu]

theorem exclusive_step (h : m' ∈ p.step m op)
    (hm : ∀ u, p.Holds (m.place u) ↔ m.owner = some u) (u : ι) :
    p.Holds (m'.place u) ↔ m'.owner = some u := by
  obtain ⟨t, x, rfl, hx⟩ | ⟨t, -, h⟩ := step_cases h
  · refine exclusive_put hm ?_ u
    obtain ⟨-, hrest, rfl | rfl⟩ | ⟨-, hasleep, rfl⟩ := hx
    · cases hplace : m.place t <;> simp_all [Place.Resting, Holds]
    · cases hplace : m.place t <;> simp_all [Place.Resting, Holds]
    · simp [hasleep, Holds]
  · cases h with
    | lock _ free => exact exclusive_lock (x := .testing) hm free trivial u
    | enter _ guarded free => exact exclusive_lock (x := .changing) hm free guarded u
    | allow ht | refuse ht => exact exclusive_put hm (by simp [ht, Holds]) u
    | sleep ht | pass ht | leave ht => exact exclusive_unlock hm (by simp [ht, Holds]) id u
    | update ht =>
      refine exclusive_put hm ?_ u
      rcases ht with ⟨ht, hguarded⟩ | ht
      · simp [ht, hguarded, Holds]
      · simp [ht, Holds]
    | notify ht =>
      rw [announced_place, announced_owner]
      split
      next hu =>
        rw [← hm u, hu, ht]
        cases hguarded : p.guarded <;> simp [Holds, hguarded]
      next => rw [holds_notifyAll, hm u]

theorem consistent_step (hp : p.Lasting Valid) (hm : Consistent p Valid m)
    (h : m' ∈ p.step m op) : Consistent p Valid m' where
  valid := by
    rcases value_step h with hv | hv <;> rw [hv]
    · exact hm.valid
    · exact hp.keeps _ hm.valid
  exclusive := exclusive_step h hm.exclusive
  changed u hu := by
    have hold := hm.changed
    obtain ⟨t, x, rfl, hx⟩ | ⟨t, -, h⟩ := step_cases h
    · grind
    · cases h <;> grind [hp.makes _ hm.valid]
  passed u hu := by
    have hold := hm.passed
    obtain ⟨t, x, rfl, hx⟩ | ⟨t, -, h⟩ := step_cases h
    · grind
    · cases h <;> grind [hp.makes _ hm.valid]
  refused guarded u hu := by
    have hold := hm.refused guarded
    obtain ⟨t, x, rfl, hx⟩ | ⟨t, -, h⟩ := step_cases h
    · grind
    · cases h with
      | update ht =>
        -- the thread that changes the value holds the mutex, and so does the one refused
        have hchanging : m.place t = .changing := by simpa [guarded] using ht
        have hne : u ≠ t := by
          rintro rfl
          simp at hu
        have howner := (hm.exclusive t).mp (by simp [hchanging, Holds, guarded])
        have hu' := (hm.exclusive u).mp (by simp_all [Holds])
        exact absurd (Option.some.inj (hu'.symm.trans howner)) hne
      | _ => grind
  asleep guarded hready u hu := by
    have hold := hm.asleep guarded
    have hrefused := hm.refused guarded
    obtain ⟨t, x, rfl, hx⟩ | ⟨t, -, h⟩ := step_cases h
    · have hne : m.place t ≠ .changed := by
        rintro ht
        simp [ht, Place.Resting] at hx
      obtain ⟨c, hc⟩ := hold hready u (by grind)
      exact ⟨c, by grind⟩
    · cases h with
      | update ht => exact ⟨t, by simp⟩
      | notify ht => grind
      | sleep ht =>
        obtain ⟨c, hc⟩ := hold hready u (by grind)
        exact ⟨c, by grind⟩
      | _ =>
        obtain ⟨c, hc⟩ := hold hready u (by grind)
        exact ⟨c, by grind⟩

theorem consistent_run (hp : p.Lasting Valid) (hm : Consistent p Valid m) {ops : List (Move ι)}
    (h : m' ∈ run? p.step m ops) : Consistent p Valid m' :=
  run?_invariant (fun _ _ _ hm hstep => consistent_step hp hm hstep) hm h

theorem ready_run (hp : p.Lasting Valid) (hm : Consistent p Valid m)
    (hready : p.ready m.value = true) {ops : List (Move ι)} (h : m' ∈ run? p.step m ops) :
    p.ready m'.value = true := by
  have hboth : Consistent p Valid m' ∧ p.ready m'.value = true :=
    @run?_invariant _ _ p.step m (fun m => Consistent p Valid m ∧ p.ready m.value = true)
      (fun _ _ _ hm hstep => ⟨consistent_step hp hm.1 hstep, ready_step hp hm.1.valid hstep hm.2⟩)
      ⟨hm, hready⟩ ops m' h
  exact hboth.2

/-- A thread that fell asleep, or is about to, without seeing that the value is ready. -/
def Stranded (m : Monitor ι σ) (t : ι) : Prop := m.place t = .refused ∨ m.place t = .asleep

/-- The move neither notifies nor wakes the thread up. -/
def Quiet (t : ι) (m : Monitor ι σ) : Move ι → Prop
  | .advance c => m.place c ≠ .changed
  | .wake u => u ≠ t
  | .wait _ | .change _ => True

theorem stranded_step (h : m' ∈ p.step m op) (hready : p.ready m.value = true)
    (hquiet : Quiet t m op) :
    Stranded m' t ↔ Stranded m t := by
  unfold Stranded
  obtain ⟨u, x, rfl, hx⟩ | ⟨u, rfl, hmove⟩ := step_cases h
  · obtain ⟨-, hrest, rfl | rfl⟩ | ⟨rfl, hasleep, rfl⟩ := hx
    · grind [Place.Resting]
    · grind [Place.Resting]
    · grind [Quiet]
  · cases hmove <;> grind [Quiet]

theorem stranded_run (hp : p.Lasting Valid) (hm : Consistent p Valid m)
    (hready : p.ready m.value = true) {ops : List (Move ι)} (h : m' ∈ run? p.step m ops)
    (hquiet : Meets? p.step (Quiet t) m ops) : Stranded m' t ↔ Stranded m t := by
  induction ops generalizing m with
  | nil =>
    cases h
    exact Iff.rfl
  | cons op ops ih =>
    obtain ⟨m₁, hstep, hrest⟩ := Option.bind_eq_some_iff.mp h
    have hm₁ := consistent_step hp hm hstep
    have hready₁ := ready_step hp hm.valid hstep hready
    rw [ih hm₁ hready₁ hrest (hquiet.2 m₁ hstep), stranded_step hstep hready hquiet.1]

/-- Behind the last notification a thread is left without it just when it came between the test that
the thread made and its sleep. -/
theorem stranded_iff_refused (hp : p.Lasting Valid) (hm : Consistent p Valid m) {c : ι}
    (hc : m.place c = .changed) {last : Monitor ι σ} (h : m' ∈ p.advance m c)
    {ops : List (Move ι)} (hlast : last ∈ run? p.step m' ops)
    (hquiet : Meets? p.step (Quiet t) m' ops) : Stranded last t ↔ m.place t = .refused := by
  have hstep : m' ∈ p.step m (.advance c) := h
  have hready := ready_step hp hm.valid hstep (hm.changed c hc)
  rw [stranded_run hp (consistent_step hp hm hstep) hready hlast hquiet, Stranded]
  cases advances h <;> grind

omit [DecidableEq ι] in
theorem not_stranded_of_guarded (hm : Consistent p Valid m) (guarded : p.guarded = true)
    (hready : p.ready m.value = true) (hnone : ∀ c, m.place c ≠ .changed) : ¬ Stranded m t := by
  rintro (ht | ht)
  · rw [hm.refused guarded t ht] at hready
    cases hready
  · obtain ⟨c, hc⟩ := hm.asleep guarded hready t ht
    exact hnone c hc

section Progress

def rank : Place → Nat
  | .refused => 5
  | .asleep | .approaching => 4
  | .arriving | .woken | .changing => 3
  | .testing | .changed => 2
  | .admitted | .notified => 1
  | .outside | .through | .left => 0

variable [Fintype ι]

/-- Once the value is ready every move that is no call brings this down. -/
def weight (m : Monitor ι σ) : Nat := ∑ t, rank (m.place t)

omit [DecidableEq ι] in
theorem weight_le (m : Monitor ι σ) : weight m ≤ 5 * Fintype.card ι := by
  have hbound : ∀ t ∈ Finset.univ, rank (m.place t) ≤ 5 := fun t _ => by
    cases m.place t <;> simp [rank]
  have hsum := Finset.sum_le_card_nsmul _ _ _ hbound
  rwa [Finset.card_univ, smul_eq_mul, Nat.mul_comm] at hsum

omit [DecidableEq ι] in
theorem weight_lt {t : ι} (ht : rank (m'.place t) < rank (m.place t))
    (hle : ∀ u, rank (m'.place u) ≤ rank (m.place u)) : weight m' < weight m :=
  Finset.sum_lt_sum (fun u _ => hle u) ⟨t, Finset.mem_univ t, ht⟩

theorem weight_put {t : ι} {x : Place} (hx : rank x < rank (m.place t)) :
    weight (m.put t x) < weight m := by
  refine weight_lt (t := t) (by simpa using hx) fun u => ?_
  rw [put_place]
  split
  next hu => exact hu ▸ hx.le
  next => exact le_rfl

theorem weight_step (h : m' ∈ p.step m op) (hready : p.ready m.value = true)
    (hcall : ¬ op.IsCall) : weight m' < weight m := by
  obtain ⟨t, x, rfl, hx⟩ | ⟨t, -, hmove⟩ := step_cases h
  · obtain ⟨hop, -⟩ | ⟨-, hasleep, rfl⟩ := hx
    · exact absurd hop hcall
    · exact weight_put (by simp [hasleep, rank])
  · cases hmove with
    | lock ht => exact weight_put (x := .testing) (by rcases ht with ht | ht <;> simp [ht, rank])
    | allow ht => exact weight_put (by simp [ht, rank])
    | refuse ht hnot => exact absurd (hready.symm.trans hnot) Bool.noConfusion
    | sleep ht => exact weight_put (x := .asleep) (by simp [ht, rank])
    | pass ht => exact weight_put (x := .through) (by simp [ht, rank])
    | enter ht => exact weight_put (x := .changing) (by simp [ht, rank])
    | update ht =>
      exact weight_put (x := .changed) (by rcases ht with ⟨ht, -⟩ | ht <;> simp [ht, rank])
    | notify ht =>
      refine weight_lt (t := t) ?_ fun u => ?_
      · rw [announced_place, if_pos rfl, ht]
        split <;> simp [rank]
      · rw [announced_place]
        split
        next hu =>
          rw [hu, ht]
          split <;> simp [rank]
        next =>
          unfold notifyAll
          split <;> simp_all [rank]
    | leave ht => exact weight_put (x := .left) (by simp [ht, rank])

theorem length_le_weight (hp : p.Lasting Valid) (hm : Consistent p Valid m)
    (hready : p.ready m.value = true) {ops : List (Move ι)} (h : m' ∈ run? p.step m ops)
    (hcalls : ∀ op ∈ ops, ¬ op.IsCall) : ops.length + weight m' ≤ weight m := by
  induction ops generalizing m with
  | nil =>
    cases h
    simp
  | cons op ops ih =>
    obtain ⟨m₁, hstep, hrest⟩ := Option.bind_eq_some_iff.mp h
    have hbehind := ih (consistent_step hp hm hstep) (ready_step hp hm.valid hstep hready) hrest
      fun op' hop' => hcalls op' (List.mem_cons_of_mem _ hop')
    have hlt := weight_step hstep hready (hcalls op List.mem_cons_self)
    rw [List.length_cons]
    omega

end Progress

/-- No thread can move unless it is called. -/
def Still (p : Protocol σ) (m : Monitor ι σ) : Prop := ∀ t, p.advance m t = none

theorem Still.owner (hstill : Still p m) (hm : Consistent p Valid m) : m.owner = none := by
  cases howner : m.owner with
  | none => rfl
  | some t =>
    have hholds := (hm.exclusive t).mpr howner
    have hmove := hstill t
    cases hplace : m.place t <;> simp_all [advance, Holds]

/-- Where nothing moves, each thread is out of its call, or sleeps. -/
theorem Still.resting (hstill : Still p m) (hm : Consistent p Valid m) (t : ι) :
    (m.place t).Resting ∨ m.place t = .asleep := by
  have howner := hstill.owner hm
  have hmove := hstill t
  cases hguarded : p.guarded <;> cases hplace : m.place t <;>
    simp_all [advance, locked, Place.Resting]

theorem waits_step (h : m' ∈ p.step m op) (hcall : ¬ op.IsCall) (ht : (m.place t).Waits) :
    (m'.place t).Waits := by
  obtain ⟨u, x, rfl, hx⟩ | ⟨u, -, hmove⟩ := step_cases h
  · obtain ⟨hop, -⟩ | ⟨-, -, rfl⟩ := hx
    · exact absurd hop hcall
    · grind [Place.Waits]
  · cases hmove <;> grind [Place.Waits]

theorem waits_run {ops : List (Move ι)} (h : m' ∈ run? p.step m ops)
    (hcalls : ∀ op ∈ ops, ¬ op.IsCall) (ht : (m.place t).Waits) : (m'.place t).Waits := by
  induction ops generalizing m with
  | nil =>
    cases h
    exact ht
  | cons op ops ih =>
    obtain ⟨m₁, hstep, hrest⟩ := Option.bind_eq_some_iff.mp h
    refine ih hrest (fun op' hop' => hcalls op' (List.mem_cons_of_mem _ hop')) ?_
    exact waits_step hstep (hcalls op List.mem_cons_self) ht

/-- Where nothing moves, who waits has come through, or is left asleep. -/
theorem Still.through (hstill : Still p m) (hm : Consistent p Valid m) (ht : (m.place t).Waits) :
    m.place t = .through ∨ m.place t = .asleep := by
  rcases hstill.resting hm t with hrest | hasleep
  · cases hplace : m.place t <;> simp_all [Place.Resting, Place.Waits]
  · exact .inr hasleep

theorem Still.not_changed (hstill : Still p m) (c : ι) : m.place c ≠ .changed := by
  intro hc
  have hmove := hstill c
  simp [advance, hc] at hmove

end Protocol

end Monitor

end Coffee.Library
