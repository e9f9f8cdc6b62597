import Coffee.Library.Runs

/-! # How far a run can go

States that some allowed operations lead to, and runs that a measure makes end.
-/

namespace Coffee.Library.Runs

variable {σ ι : Type*} {step : σ → ι → Option σ} {Ok : ι → Prop} {s s' s'' : σ}

/-- Some operations, all of them allowed, lead from one state to the other. -/
def Leads (step : σ → ι → Option σ) (Ok : ι → Prop) (s s' : σ) : Prop :=
  ∃ ops : List ι, (∀ op ∈ ops, Ok op) ∧ s' ∈ run? step s ops

theorem Leads.refl (s : σ) : Leads step Ok s s := ⟨[], by simp, rfl⟩

theorem Leads.trans (h : Leads step Ok s s') (h' : Leads step Ok s' s'') : Leads step Ok s s'' := by
  obtain ⟨ops, hops, hrun⟩ := h
  obtain ⟨ops', hops', hrun'⟩ := h'
  refine ⟨ops ++ ops', List.forall_mem_append.mpr ⟨hops, hops'⟩, ?_⟩
  rw [run?_append]
  exact Option.bind_eq_some_iff.mpr ⟨s', hrun, hrun'⟩

theorem run?_invariant_of_forall {Inv : σ → Prop}
    (hstep : ∀ s op s', Inv s → Ok op → s' ∈ step s op → Inv s') (h : Inv s) {ops : List ι}
    (hops : ∀ op ∈ ops, Ok op) (hrun : s' ∈ run? step s ops) : Inv s' := by
  induction ops generalizing s with
  | nil =>
    cases hrun
    exact h
  | cons op ops ih =>
    obtain ⟨hop, hops⟩ := List.forall_mem_cons.mp hops
    obtain ⟨s₁, hs₁, hrest⟩ := Option.bind_eq_some_iff.mp hrun
    exact ih (hstep s op s₁ h hop hs₁) hops hrest

theorem Leads.invariant {Inv : σ → Prop}
    (hstep : ∀ s op s', Inv s → Ok op → s' ∈ step s op → Inv s') (h : Inv s)
    (hleads : Leads step Ok s s') : Inv s' := by
  obtain ⟨ops, hops, hrun⟩ := hleads
  exact run?_invariant_of_forall hstep h hops hrun

/-- A measure that no allowed operation raises and each counted one lowers bounds their number. -/
theorem countP_le_of_measure {Inv : σ → Prop} {measure : σ → Nat} {counts : ι → Bool}
    (hstep : ∀ s op s', Inv s → Ok op → s' ∈ step s op →
      Inv s' ∧ measure s' + [op].countP counts ≤ measure s)
    (h : Inv s) {ops : List ι} (hops : ∀ op ∈ ops, Ok op) (hrun : s' ∈ run? step s ops) :
    ops.countP counts ≤ measure s := by
  induction ops generalizing s with
  | nil => exact Nat.zero_le _
  | cons op ops ih =>
    obtain ⟨hop, hops⟩ := List.forall_mem_cons.mp hops
    obtain ⟨s₁, hs₁, hrest⟩ := Option.bind_eq_some_iff.mp hrun
    obtain ⟨hinv, hmeasure⟩ := hstep s op s₁ h hop hs₁
    have hbehind := ih hinv hops hrest
    rw [← List.singleton_append, List.countP_append]
    omega

end Coffee.Library.Runs
