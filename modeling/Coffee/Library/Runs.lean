import Mathlib.Data.List.Basic

/-! # Runs of a step function

A run feeds a list of operations to a step function. What each step preserves holds along every
run, either for all operations or for the runs whose steps meet a condition on the state before.
-/

namespace Coffee.Library.Runs

variable {σ τ ι : Type*}

def run (step : σ → ι → σ) (s : σ) (ops : List ι) : σ := ops.foldl step s

/-- Each operation meets `Ok` in the state it is applied to. -/
def Meets (step : σ → ι → σ) (Ok : σ → ι → Prop) : σ → List ι → Prop
  | _, [] => True
  | s, op :: ops => Ok s op ∧ Meets step Ok (step s op) ops

variable {step : σ → ι → σ} {Ok : σ → ι → Prop} {s : σ}

@[simp] theorem run_nil : run step s [] = s := rfl

@[simp] theorem run_cons (op : ι) (ops : List ι) :
    run step s (op :: ops) = run step (step s op) ops := rfl

theorem run_append (ops ops' : List ι) :
    run step s (ops ++ ops') = run step (run step s ops) ops' := List.foldl_append

theorem run_concat (ops : List ι) (op : ι) :
    run step s (ops ++ [op]) = step (run step s ops) op := run_append ops [op]

theorem meets_append {ops ops' : List ι} :
    Meets step Ok s (ops ++ ops') ↔
      Meets step Ok s ops ∧ Meets step Ok (run step s ops) ops' := by
  induction ops generalizing s with
  | nil => simp [Meets]
  | cons op ops ih => simp [Meets, ih, and_assoc]

theorem meets_iff {ops : List ι} :
    Meets step Ok s ops ↔ ∀ pre op post, ops = pre ++ op :: post → Ok (run step s pre) op := by
  constructor
  · rintro h pre op post rfl
    exact (meets_append.mp h).2.1
  · intro h
    induction ops generalizing s with
    | nil => trivial
    | cons op ops ih =>
      exact ⟨h [] op ops rfl, ih fun pre op' post hops => h (op :: pre) op' post (by rw [hops]; rfl)⟩

theorem invariant {Inv : σ → Prop} (hstep : ∀ s op, Inv s → Inv (step s op)) (h : Inv s)
    (ops : List ι) : Inv (run step s ops) := by
  induction ops generalizing s with
  | nil => exact h
  | cons op ops ih => exact ih (hstep s op h)

theorem Meets.invariant {Inv : σ → Prop} {ops : List ι} (hops : Meets step Ok s ops)
    (hstep : ∀ s op, Inv s → Ok s op → Inv (step s op)) (h : Inv s) : Inv (run step s ops) := by
  induction ops generalizing s with
  | nil => exact h
  | cons op ops ih => exact ih hops.2 (hstep s op h hops.1)

/-- What follows from a condition and an invariant that the condition keeps is met, too. -/
theorem Meets.of_invariant {Inv : σ → Prop} {Ok' : σ → ι → Prop} {ops : List ι}
    (hops : Meets step Ok s ops) (hstep : ∀ s op, Inv s → Ok s op → Inv (step s op) ∧ Ok' s op)
    (h : Inv s) : Meets step Ok' s ops := by
  induction ops generalizing s with
  | nil => trivial
  | cons op ops ih =>
    obtain ⟨hnext, hop⟩ := hstep s op h hops.1
    exact ⟨hop, ih hops.2 hnext⟩

theorem forall_prefix_cons {P : List ι → Prop} {op : ι} {ops : List ι} :
    (∀ pre, pre <+: op :: ops → P pre) ↔ P [] ∧ ∀ pre, pre <+: ops → P (op :: pre) := by
  constructor
  · intro h
    exact ⟨h [] List.nil_prefix, fun pre hpre => h _ (List.cons_prefix_cons.mpr ⟨rfl, hpre⟩)⟩
  · rintro ⟨hnil, hcons⟩ pre hpre
    cases pre with
    | nil => exact hnil
    | cons op' pre =>
      obtain ⟨rfl, hrest⟩ := List.cons_prefix_cons.mp hpre
      exact hcons pre hrest

/-- Where a step keeps the invariant just when it meets the condition, and a broken invariant shows,
a property holds of every prefix just when every step meets the condition. -/
theorem meets_iff_forall_prefix {Inv P : σ → Prop} (hinv : ∀ s, Inv s → P s)
    (hkeeps : ∀ s op, Inv s → Ok s op → Inv (step s op))
    (hbreaks : ∀ s op, Inv s → ¬ Ok s op → ¬ P (step s op)) (h : Inv s) {ops : List ι} :
    (∀ pre, pre <+: ops → P (run step s pre)) ↔ Meets step Ok s ops := by
  constructor
  · intro hholds
    induction ops generalizing s with
    | nil => trivial
    | cons op ops ih =>
      have hok : Ok s op := by
        by_contra hnot
        exact hbreaks s op h hnot (hholds [op] (by simp))
      refine ⟨hok, ih (hkeeps s op h hok) fun pre hpre => ?_⟩
      exact hholds (op :: pre) (List.cons_prefix_cons.mpr ⟨rfl, hpre⟩)
  · rintro hmeets pre ⟨rest, rfl⟩
    exact hinv _ ((meets_append.mp hmeets).1.invariant hkeeps h)

/-- Under an invariant, what a step keeps just when it meets the condition, and never brings back,
holds behind a run just when every step meets the condition. -/
theorem holds_iff_meets_of_invariant {I P : σ → Prop} (hinv : ∀ s op, I s → I (step s op))
    (hstep : ∀ s op, I s → (P (step s op) ↔ P s ∧ Ok s op)) (hs : I s) (h : P s)
    (ops : List ι) : P (run step s ops) ↔ Meets step Ok s ops := by
  have hrun : P (run step s ops) ↔ P s ∧ Meets step Ok s ops := by
    clear h
    induction ops generalizing s with
    | nil => simp [Meets]
    | cons op ops ih => rw [run_cons, ih (hinv s op hs), hstep s op hs, Meets, and_assoc]
  exact hrun.trans (and_iff_right h)

theorem holds_iff_meets {P : σ → Prop} (hstep : ∀ s op, P (step s op) ↔ P s ∧ Ok s op) (h : P s)
    (ops : List ι) : P (run step s ops) ↔ Meets step Ok s ops :=
  holds_iff_meets_of_invariant (I := fun _ => True) (fun _ _ _ => trivial)
    (fun s op _ => hstep s op) trivial h ops

theorem simulation {step' : τ → ι → τ} {R : σ → τ → Prop}
    (hstep : ∀ s t op, R s t → R (step s op) (step' t op)) {t : τ} (h : R s t) (ops : List ι) :
    R (run step s ops) (run step' t ops) := by
  induction ops generalizing s t with
  | nil => exact h
  | cons op ops ih => exact ih (hstep s t op h)

/-- Where a legal step stays beside its reference just when it meets the condition, and whatever leaves
the invariant shows, a property holds of every front of a legal run just when every step meets the
condition. -/
theorem forall_prefix_iff_meets {step' : τ → ι → τ} {Inv P : σ → τ → Prop} {Legal Ok : τ → ι → Prop}
    (hinv : ∀ s t, Inv s t → P s t)
    (hkeeps : ∀ s t op, Inv s t → Legal t op → Ok t op → Inv (step s op) (step' t op))
    (hbreaks : ∀ s t op, Inv s t → Legal t op → ¬ Ok t op → ¬ P (step s op) (step' t op))
    {t : τ} (h : Inv s t) {ops : List ι} (hlegal : Meets step' Legal t ops) :
    (∀ pre, pre <+: ops → P (run step s pre) (run step' t pre)) ↔ Meets step' Ok t ops := by
  induction ops generalizing s t with
  | nil =>
    refine iff_of_true (fun pre hpre => ?_) trivial
    rw [List.prefix_nil.mp hpre]
    exact hinv s t h
  | cons op ops ih =>
    constructor
    · intro hholds
      have hok : Ok t op := by
        by_contra hnot
        exact hbreaks s t op h hlegal.1 hnot (hholds [op] (by simp))
      refine ⟨hok, (ih (hkeeps s t op h hlegal.1 hok) hlegal.2).mp fun pre hpre => ?_⟩
      exact hholds (op :: pre) (List.cons_prefix_cons.mpr ⟨rfl, hpre⟩)
    · rintro ⟨hok, hmeets⟩ pre hpre
      cases pre with
      | nil => exact hinv s t h
      | cons op' pre =>
        obtain ⟨rfl, hrest⟩ := List.cons_prefix_cons.mp hpre
        exact (ih (hkeeps s t op' h hlegal.1 hok) hlegal.2).mpr hmeets pre hrest

/-- Runs that meet a condition stay beside their reference where a step that meets it does. -/
theorem Meets.simulation {step' : τ → ι → τ} {R : σ → τ → Prop} {ops : List ι}
    (hops : Meets step Ok s ops) (hstep : ∀ s t op, R s t → Ok s op → R (step s op) (step' t op))
    {t : τ} (h : R s t) : R (run step s ops) (run step' t ops) := by
  induction ops generalizing s t with
  | nil => exact h
  | cons op ops ih => exact ih hops.2 (hstep s t op h hops.1)

theorem meets_true (step : σ → ι → σ) (s : σ) (ops : List ι) :
    Meets step (fun _ _ => True) s ops := by
  induction ops generalizing s with
  | nil => trivial
  | cons op ops ih => exact ⟨trivial, ih (step s op)⟩

/-- Runs that stay beside each other meet related conditions together. -/
theorem Meets.meets_iff_of_simulation {step' : τ → ι → τ} {Ok₁ : σ → ι → Prop}
    {Ok₂ : τ → ι → Prop} {R : σ → τ → Prop} {ops : List ι} (hops : Meets step Ok s ops)
    (hstep : ∀ s t op, R s t → Ok s op → R (step s op) (step' t op))
    (hok : ∀ s t op, R s t → (Ok₁ s op ↔ Ok₂ t op)) {t : τ} (h : R s t) :
    Meets step Ok₁ s ops ↔ Meets step' Ok₂ t ops := by
  induction ops generalizing s t with
  | nil => exact Iff.rfl
  | cons op ops ih => exact and_congr (hok s t op h) (ih hops.2 (hstep s t op h hops.1))

/-- Related runs meet related conditions together. -/
theorem meets_simulation {step' : τ → ι → τ} {Ok' : τ → ι → Prop} {R : σ → τ → Prop}
    (hstep : ∀ s t op, R s t → R (step s op) (step' t op))
    (hok : ∀ s t op, R s t → (Ok s op ↔ Ok' t op)) {t : τ} (h : R s t) (ops : List ι) :
    Meets step Ok s ops ↔ Meets step' Ok' t ops :=
  (meets_true step s ops).meets_iff_of_simulation (fun s t op h _ => hstep s t op h) hok h

def run? (step : σ → ι → Option σ) : σ → List ι → Option σ
  | s, [] => some s
  | s, op :: ops => (step s op).bind fun s => run? step s ops

/-- Each operation meets `Ok` in the state it is applied to, as far as the run is defined. -/
def Meets? (step : σ → ι → Option σ) (Ok : σ → ι → Prop) : σ → List ι → Prop
  | _, [] => True
  | s, op :: ops => Ok s op ∧ ∀ s' ∈ step s op, Meets? step Ok s' ops

instance Meets?.decidable (step : σ → ι → Option σ) (Ok : σ → ι → Prop)
    [∀ s op, Decidable (Ok s op)] : (s : σ) → (ops : List ι) → Decidable (Meets? step Ok s ops)
  | _, [] => .isTrue trivial
  | s, op :: ops =>
    have : ∀ s', Decidable (Meets? step Ok s' ops) := fun s' => Meets?.decidable step Ok s' ops
    inferInstanceAs (Decidable (Ok s op ∧ ∀ s' ∈ step s op, Meets? step Ok s' ops))

section Partial

variable {step : σ → ι → Option σ} {Ok Ok' : σ → ι → Prop} {s : σ}

theorem run?_append (ops ops' : List ι) :
    run? step s (ops ++ ops') = (run? step s ops).bind fun s' => run? step s' ops' := by
  induction ops generalizing s with
  | nil => rfl
  | cons op ops ih => simp only [List.cons_append, run?, ih, Option.bind_assoc]

theorem run?_concat (ops : List ι) (op : ι) :
    run? step s (ops ++ [op]) = (run? step s ops).bind fun s' => step s' op := by
  simp [run?_append, run?]

/-- A run is defined where each of its steps is. -/
theorem exists_run? {ops : List ι} (h : ∀ pre op post s', ops = pre ++ op :: post →
    s' ∈ run? step s pre → ∃ s'', s'' ∈ step s' op) : ∃ s', s' ∈ run? step s ops := by
  induction ops generalizing s with
  | nil => exact ⟨s, rfl⟩
  | cons op ops ih =>
    obtain ⟨s₁, hs₁⟩ := h [] op ops s rfl rfl
    obtain ⟨s', hs'⟩ := ih fun pre op' post s' hops hrun =>
      h (op :: pre) op' post s' (by rw [hops]; rfl) (Option.bind_eq_some_iff.mpr ⟨s₁, hs₁, hrun⟩)
    exact ⟨s', Option.bind_eq_some_iff.mpr ⟨s₁, hs₁, hs'⟩⟩

theorem run?_invariant {Inv : σ → Prop} (hstep : ∀ s op s', Inv s → s' ∈ step s op → Inv s')
    (h : Inv s) {ops : List ι} {s' : σ} (hrun : s' ∈ run? step s ops) : Inv s' := by
  induction ops generalizing s with
  | nil =>
    cases hrun
    exact h
  | cons op ops ih =>
    obtain ⟨s₁, hs₁, hrest⟩ := Option.bind_eq_some_iff.mp hrun
    exact ih (hstep s op s₁ h hs₁) hrest

theorem meets?_iff {ops : List ι} :
    Meets? step Ok s ops ↔
      ∀ pre op post s', ops = pre ++ op :: post → s' ∈ run? step s pre → Ok s' op := by
  constructor
  · intro h pre op post s' hops hrun
    subst hops
    induction pre generalizing s with
    | nil =>
      cases hrun
      exact h.1
    | cons op' pre ih =>
      obtain ⟨s₁, hs₁, hrest⟩ := Option.bind_eq_some_iff.mp hrun
      exact ih hrest (h.2 s₁ hs₁)
  · intro h
    induction ops generalizing s with
    | nil => trivial
    | cons op ops ih =>
      refine ⟨h [] op ops s rfl rfl, fun s₁ hs₁ => ih fun pre op' post s' hops hrun => ?_⟩
      refine h (op :: pre) op' post s' (by rw [hops]; rfl) ?_
      rwa [run?, hs₁]

theorem Meets?.behind {ops ops' : List ι} {s' : σ} (h : Meets? step Ok s (ops ++ ops'))
    (hrun : s' ∈ run? step s ops) : Meets? step Ok s' ops' := by
  induction ops generalizing s with
  | nil =>
    cases hrun
    exact h
  | cons op ops ih =>
    obtain ⟨s₁, hs₁, hrest⟩ := Option.bind_eq_some_iff.mp hrun
    exact ih (h.2 s₁ hs₁) hrest

/-- Conditions that agree wherever an invariant holds are met by the same runs. -/
theorem meets?_congr {Inv : σ → Prop} (hstep : ∀ s op s', Inv s → s' ∈ step s op → Inv s')
    (hok : ∀ s op, Inv s → (Ok s op ↔ Ok' s op)) (h : Inv s) (ops : List ι) :
    Meets? step Ok s ops ↔ Meets? step Ok' s ops := by
  induction ops generalizing s with
  | nil => exact Iff.rfl
  | cons op ops ih =>
    refine and_congr (hok s op h) (forall₂_congr fun s' hs' => ?_)
    exact ih (hstep s op s' h hs')

section Projection

variable {κ : Type*} {step' : τ → κ → Option τ} {view : σ → τ} {proj : ι → Option κ}

/-- A step shows in the view as the step that it projects to, or not at all. -/
def Projects (step : σ → ι → Option σ) (step' : τ → κ → Option τ) (view : σ → τ)
    (proj : ι → Option κ) : Prop :=
  ∀ s op s', s' ∈ step s op →
    match proj op with
    | none => view s' = view s
    | some op' => view s' ∈ step' (view s) op'

theorem Projects.run? (h : Projects step step' view proj) {ops : List ι} {s' : σ}
    (hrun : s' ∈ run? step s ops) :
    view s' ∈ Runs.run? step' (view s) (ops.filterMap proj) := by
  induction ops generalizing s with
  | nil =>
    cases hrun
    rfl
  | cons op ops ih =>
    obtain ⟨s₁, hs₁, hrest⟩ := Option.bind_eq_some_iff.mp hrun
    have hview := h s op s₁ hs₁
    cases hop : proj op with
    | none =>
      rw [hop] at hview
      rw [List.filterMap_cons_none hop, ← hview]
      exact ih hrest
    | some op' =>
      rw [hop] at hview
      rw [List.filterMap_cons_some hop]
      exact Option.bind_eq_some_iff.mpr ⟨view s₁, hview, ih hrest⟩

theorem Projects.meets? (h : Projects step step' view proj) {Ok : τ → κ → Prop} {ops : List ι}
    {s' : σ} (hrun : s' ∈ Runs.run? step s ops)
    (hops : Meets? step (fun s op => ∀ op' ∈ proj op, Ok (view s) op') s ops) :
    Meets? step' Ok (view s) (ops.filterMap proj) := by
  induction ops generalizing s with
  | nil => trivial
  | cons op ops ih =>
    obtain ⟨s₁, hs₁, hrest⟩ := Option.bind_eq_some_iff.mp hrun
    have hview := h s op s₁ hs₁
    cases hop : proj op with
    | none =>
      rw [hop] at hview
      rw [List.filterMap_cons_none hop, ← hview]
      exact ih hrest (hops.2 s₁ hs₁)
    | some op' =>
      rw [hop] at hview
      rw [List.filterMap_cons_some hop]
      refine ⟨hops.1 op' hop, fun t ht => ?_⟩
      cases Option.mem_unique hview ht
      exact ih hrest (hops.2 s₁ hs₁)

end Projection

theorem run?_total {Inv : σ → Prop} (hstep : ∀ s op, Inv s → ∃ s', step s op = some s' ∧ Inv s')
    (h : Inv s) (ops : List ι) : ∃ s', run? step s ops = some s' ∧ Inv s' := by
  induction ops generalizing s with
  | nil => exact ⟨s, rfl, h⟩
  | cons op ops ih =>
    obtain ⟨s', hs', h'⟩ := hstep s op h
    rw [run?, hs', Option.bind_some]
    exact ih h'

theorem meets?_of_invariant {Inv : σ → Prop} (hstep : ∀ s op s', Inv s → s' ∈ step s op → Inv s')
    (hok : ∀ s op, Inv s → Ok s op) (h : Inv s) (ops : List ι) : Meets? step Ok s ops := by
  induction ops generalizing s with
  | nil => trivial
  | cons op ops ih => exact ⟨hok s op h, fun s' hs' => ih (hstep s op s' h hs')⟩

end Partial

theorem Meets?.invariant {step : σ → ι → Option σ} {Inv : σ → Prop}
    (hstep : ∀ s op, Inv s → Ok s op → ∃ s', step s op = some s' ∧ Inv s')
    {ops : List ι} (hops : Meets? step Ok s ops) (h : Inv s) :
    ∃ s', run? step s ops = some s' ∧ Inv s' := by
  induction ops generalizing s with
  | nil => exact ⟨s, rfl, h⟩
  | cons op ops ih =>
    obtain ⟨s', hs', h'⟩ := hstep s op h hops.1
    rw [run?, hs', Option.bind_some]
    exact ih (hops.2 s' hs') h'

variable {ω : Type*}

def trace (step : τ → ι → ω × τ) : τ → List ι → List ω × τ
  | t, [] => ([], t)
  | t, op :: ops =>
    let behind := trace step (step t op).2 ops
    ((step t op).1 :: behind.1, behind.2)

theorem trace_append_snd (step : τ → ι → ω × τ) (t : τ) (ops ops' : List ι) :
    (trace step t (ops ++ ops')).2 = (trace step (trace step t ops).2 ops').2 := by
  induction ops generalizing t with
  | nil => rfl
  | cons op ops ih => exact ih (step t op).2

def trace? (step : σ → ι → Option (ω × σ)) : σ → List ι → Option (List ω × σ)
  | s, [] => some ([], s)
  | s, op :: ops => do
    let (outcome, s) ← step s op
    let (outcomes, s) ← trace? step s ops
    return (outcome :: outcomes, s)

theorem trace?_cons {step : σ → ι → Option (ω × σ)} {s s' : σ} {op : ι} {outcome : ω}
    (h : step s op = some (outcome, s')) (ops : List ι) : trace? step s (op :: ops) =
      (trace? step s' ops).map fun behind => (outcome :: behind.1, behind.2) := by
  simp only [trace?, h, Option.bind_eq_bind, Option.bind_some]
  cases trace? step s' ops <;> rfl

/-- A step that is defined and simulates a reference has runs that are defined and simulate it. -/
theorem trace?_simulation {step : σ → ι → Option (ω × σ)} {step' : τ → ι → ω × τ}
    {R : σ → τ → Prop}
    (hstep : ∀ s t op, R s t → ∃ s', step s op = some ((step' t op).1, s') ∧ R s' (step' t op).2)
    {s : σ} {t : τ} (h : R s t) (ops : List ι) :
    ∃ s', trace? step s ops = some ((trace step' t ops).1, s') ∧ R s' (trace step' t ops).2 := by
  induction ops generalizing s t with
  | nil => exact ⟨s, rfl, h⟩
  | cons op ops ih =>
    obtain ⟨s₁, hs₁, h₁⟩ := hstep s t op h
    obtain ⟨s₂, hs₂, h₂⟩ := ih h₁
    exact ⟨s₂, by simp [trace?, trace, hs₁, hs₂], h₂⟩

/-- Where a step follows its reference just when it meets the condition, and whatever leaves the
invariant shows, every front of a run follows it just when every step meets the condition. -/
theorem trace?_iff_meets {step : σ → ι → Option (ω × σ)} {step' : τ → ι → ω × τ}
    {Inv P : σ → τ → Prop} {Ok : τ → ι → Prop} (hinv : ∀ s t, Inv s t → P s t)
    (hkeeps : ∀ s t op, Inv s t → Ok t op →
      ∃ s', step s op = some ((step' t op).1, s') ∧ Inv s' (step' t op).2)
    (hbreaks : ∀ s t op, Inv s t → ¬ Ok t op →
      ∀ s', step s op = some ((step' t op).1, s') → ¬ P s' (step' t op).2)
    {s : σ} {t : τ} (h : Inv s t) {ops : List ι} :
    (∀ pre, pre <+: ops → ∃ s', trace? step s pre = some ((trace step' t pre).1, s') ∧
      P s' (trace step' t pre).2) ↔ Meets (fun t op => (step' t op).2) Ok t ops := by
  induction ops generalizing s t with
  | nil =>
    refine iff_of_true (fun pre hpre => ?_) trivial
    rw [List.prefix_nil.mp hpre]
    exact ⟨s, rfl, hinv s t h⟩
  | cons op ops ih =>
    rw [Meets]
    by_cases hok : Ok t op
    · obtain ⟨s₁, hs₁, h₁⟩ := hkeeps s t op h hok
      have htrace := trace?_cons hs₁
      rw [and_iff_right hok, ← ih h₁]
      constructor
      · intro hfollows pre hpre
        obtain ⟨s', hs', hP⟩ := hfollows (op :: pre) (List.cons_prefix_cons.mpr ⟨rfl, hpre⟩)
        rw [htrace, Option.map_eq_some_iff] at hs'
        obtain ⟨⟨outcomes, last⟩, hbehind, heq⟩ := hs'
        cases heq
        exact ⟨last, hbehind, hP⟩
      · intro hfollows pre hpre
        cases pre with
        | nil => exact ⟨s, rfl, hinv s t h⟩
        | cons op' pre =>
          obtain ⟨rfl, hrest⟩ := List.cons_prefix_cons.mp hpre
          obtain ⟨s', hs', hP⟩ := hfollows pre hrest
          refine ⟨s', ?_, hP⟩
          rw [htrace, hs']
          rfl
    · refine iff_of_false (fun hfollows => ?_) fun hmeets => hok hmeets.1
      obtain ⟨s', hs', hP⟩ := hfollows [op] (List.cons_prefix_cons.mpr ⟨rfl, List.nil_prefix⟩)
      cases hstep : step s op with
      | none =>
        rw [trace?, hstep] at hs'
        cases hs'
      | some result =>
        obtain ⟨outcome, s₁⟩ := result
        rw [trace?_cons hstep] at hs'
        cases hs'
        exact hbreaks s t op h hok s₁ hstep hP

end Coffee.Library.Runs
