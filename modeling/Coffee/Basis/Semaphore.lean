import Mathlib.Algebra.Ring.Int.Defs
import Coffee.Library.Monitor

/-! # The semaphore

`wait` blocks while the counter is zero and takes no unit away, whatever its comment in the header
says, so one `signal` opens the semaphore for good. -/

namespace Coffee.Basis.Semaphore

open Coffee.Library Monitor Runs

/-- The counter is the value. Both calls hold the mutex. -/
def protocol : Protocol Int where
  ready counter := counter != 0
  update counter := counter + 1
  guarded := true

variable {ι : Type*}

def wait (t : ι) : Move ι := .wait t

def signal (t : ι) : Move ι := .change t

variable [DecidableEq ι]

def step : Monitor ι Int → Move ι → Option (Monitor ι Int) := protocol.step

variable {n : Int} {s s' : Monitor ι Int} {op : Move ι} {ops more : List (Move ι)}

theorem protocol_lasting : protocol.Lasting (0 ≤ ·) where
  keeps v hv := Int.add_nonneg hv Int.one_nonneg
  makes v hv := by
    have hne : v + 1 ≠ 0 := by omega
    simpa [protocol] using hne

theorem consistent (hn : 0 ≤ n) (hs : s ∈ run? step (fresh n) ops) :
    protocol.Consistent (0 ≤ ·) s :=
  Protocol.consistent_run protocol_lasting (Protocol.consistent_fresh protocol hn) hs

/-- Nobody is on the way to a notification. -/
def Unsignalled (n : Int) (s : Monitor ι Int) : Prop :=
  s.value = n ∧ ∀ t, s.place t ≠ .approaching ∧ s.place t ≠ .changing

theorem unsignalled_step (hs : Unsignalled n s) (hop : ∀ t, op ≠ signal t) (h : s' ∈ step s op) :
    Unsignalled n s' := by
  obtain ⟨hvalue, hplace⟩ := hs
  cases op with
  | change t => exact absurd rfl (hop t)
  | wait t | wake t =>
    obtain ⟨-, h⟩ := Option.ite_none_right_eq_some.mp h
    cases h
    exact ⟨hvalue, fun u => by grind⟩
  | advance t =>
    cases Protocol.advances h with
    | update ht =>
      rcases ht with ⟨ht, -⟩ | ht
      · exact absurd ht (hplace t).1
      · exact absurd ht (hplace t).2
    | enter ht => exact absurd ht (hplace t).1
    | _ => exact ⟨hvalue, fun u => by grind⟩

theorem unsignalled_run (hops : ∀ t, signal t ∉ ops) (hs : s ∈ run? step (fresh n) ops) :
    Unsignalled n s := by
  have hfresh : Unsignalled n (fresh n : Monitor ι Int) := ⟨rfl, fun t => by simp [fresh]⟩
  revert hfresh hs
  generalize (fresh n : Monitor ι Int) = m
  intro hs hm
  induction ops generalizing m with
  | nil =>
    cases hs
    exact hm
  | cons op ops ih =>
    obtain ⟨m₁, hstep, hrest⟩ := Option.bind_eq_some_iff.mp hs
    have hop : ∀ t, op ≠ signal t := fun t heq => hops t (heq ▸ List.mem_cons_self)
    exact ih (fun t ht => hops t (List.mem_cons_of_mem _ ht)) m₁ hrest
      (unsignalled_step hm hop hstep)

/-- Nobody comes through a semaphore without units that was not signalled. Once its counter is not
zero it lets everybody through, however many wait and in whatever order they and the signals go on:
what is still to do is bounded, and where nothing can move every call that waited has returned. -/
theorem every_waiter_released [Fintype ι] (hn : 0 ≤ n) (hs : s ∈ run? step (fresh n) ops) :
    (n = 0 → (∀ t, signal t ∉ ops) → ∀ t, s.place t ≠ .through) ∧
    (s.value ≠ 0 → ∀ more s', s' ∈ run? step s more → (∀ op ∈ more, ¬ op.IsCall) →
      more.length ≤ 5 * Fintype.card ι ∧
        (protocol.Still s' → ∀ t, (s.place t).Waits → s'.place t = .through)) := by
  have hconsistent := consistent hn hs
  constructor
  · rintro rfl hops t ht
    have hready := hconsistent.passed t (.inr ht)
    simp [protocol, (unsignalled_run hops hs).1] at hready
  · intro hvalue more s' hs' hcalls
    have hready : protocol.ready s.value = true := by simpa [protocol] using hvalue
    have hlength := Protocol.length_le_weight protocol_lasting hconsistent hready hs' hcalls
    have hweight := Protocol.weight_le s
    refine ⟨by omega, fun hstill t ht => ?_⟩
    have hconsistent' := Protocol.consistent_run protocol_lasting hconsistent hs'
    have hready' := Protocol.ready_run protocol_lasting hconsistent hready hs'
    rcases hstill.through hconsistent' (Protocol.waits_run hs' hcalls ht) with hthrough | hasleep
    · exact hthrough
    · exact absurd (.inr hasleep)
        (Protocol.not_stranded_of_guarded hconsistent' rfl hready' hstill.not_changed)

/-- One thread falls asleep, the other counts up and has yet to notify. -/
def waiterAsleep : List (Move Bool) :=
  [wait false, .advance false, .advance false, .advance false,
    signal true, .advance true, .advance true]

theorem waiterAsleep_isSome : (run? step (fresh 0) waiterAsleep).isSome := by decide

theorem every_waiter_released_pair : ∃ s ∈ run? step (fresh 0) waiterAsleep,
    s.value = 1 ∧ s.place false = .asleep ∧
    ∀ more s', s' ∈ run? step s more → (∀ op ∈ more, ¬ op.IsCall) →
      more.length ≤ 10 ∧ (protocol.Still s' → s'.place false = .through) := by
  have hasleep : ((run? step (fresh 0) waiterAsleep).get waiterAsleep_isSome).place false =
      .asleep := by decide
  refine ⟨_, Option.get_mem waiterAsleep_isSome, by decide, hasleep, fun more s' hs' hcalls => ?_⟩
  have hreleased := every_waiter_released (n := 0) (by decide) (Option.get_mem waiterAsleep_isSome)
  obtain ⟨hlength, hthrough⟩ := hreleased.2 (by decide) more s' hs' hcalls
  refine ⟨by simpa using hlength, fun hstill => hthrough hstill false ?_⟩
  rw [hasleep]
  trivial

end Coffee.Basis.Semaphore
