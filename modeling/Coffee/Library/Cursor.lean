import Coffee.Library.Runs
import Mathlib.Data.List.Range

/-! # Cursors over a result

An execution leaves a number of rows, and each fetch hands over the next of them, if there is one.
A cursor that begins again behind the last row hands over too much from there on.
-/

namespace Coffee.Library.Cursor

inductive Call where
  | execute (n : Nat)
  | fetch
deriving DecidableEq, Repr

/-- A fetch hands over the position of a row. -/
structure Machine (σ : Type*) where
  execute : Nat → σ → σ
  fetch : σ → Option Nat × σ

variable {σ : Type*}

def Machine.step (machine : Machine σ) (s : σ) : Call → Option Nat × σ
  | .execute n => (none, machine.execute n s)
  | .fetch => machine.fetch s

/-- What `m` fetches are to hand over of `n` rows. -/
def rows (n m : Nat) : List (Option Nat) :=
  (List.range (min n m)).map some ++ List.replicate (m - n) none

theorem rows_eq_map (n m : Nat) :
    rows n m = (List.range m).map fun k => if k < n then some k else none := by
  apply List.ext_getElem
  · simp only [rows, List.length_append, List.length_map, List.length_range, List.length_replicate]
    omega
  · intro k hk _
    have hkm : k < m := by
      simp only [rows, List.length_append, List.length_map, List.length_range,
        List.length_replicate] at hk
      omega
    by_cases hkn : k < n
    · have hmin : k < min n m := by omega
      simp [rows, hkn, hmin]
    · have hmin : ¬ k < min n m := by omega
      simp [rows, List.getElem_append, hkn, hmin]

/-- An execution that leaves `n` rows with `m` fetches behind it. -/
def Phase (calls : List Call) (n m : Nat) : Prop :=
  ∃ pre post, calls = pre ++ .execute n :: (List.replicate m .fetch ++ post)

/-- Every execution of the run is followed by its rows in their order, each once, and by nothing
else until the next one. -/
def Machine.Obeys (machine : Machine σ) (s : σ) (calls : List Call) : Prop :=
  ∀ pre n m post, calls = pre ++ .execute n :: (List.replicate m .fetch ++ post) →
    (Runs.trace machine.step (Runs.run (fun s call => (machine.step s call).2) s pre)
      (.execute n :: List.replicate m .fetch)).1 = none :: rows n m

/-- The cursor is `At n p` in front of position `p` of `n`. Behind the last row it misses once and
is back at the first; an execution leaves it at `start`. -/
structure Circulates (machine : Machine σ) (Inv : σ → Prop) (At : Nat → Nat → σ → Prop)
    (start : Nat → Nat) : Prop where
  keeps : ∀ s call, Inv s → Inv (machine.step s call).2
  start_le : ∀ n, start n ≤ n
  execute : ∀ n s, Inv s → At n (start n) (machine.execute n s)
  next : ∀ n p s, At n p s → p < n → (machine.fetch s).1 = some p ∧ At n (p + 1) (machine.fetch s).2
  restart : ∀ n s, At n n s → (machine.fetch s).1 = none ∧ At n 0 (machine.fetch s).2

def circular (n k : Nat) : Option Nat := if k % (n + 1) < n then some (k % (n + 1)) else none

theorem circular_of_lt {n k : Nat} (h : k < n) : circular n k = some k := by
  rw [circular, Nat.mod_eq_of_lt (Nat.lt_succ_of_lt h), if_pos h]

theorem circular_self (n : Nat) : circular n n = none := by
  rw [circular, Nat.mod_eq_of_lt (Nat.lt_succ_self n), if_neg (Nat.lt_irrefl n)]

theorem circular_add (n k : Nat) : circular n (n + 1 + k) = circular n k := by
  rw [circular, circular, Nat.add_mod_left]

theorem circular_zero (k : Nat) : circular 0 k = none := by
  rw [circular, if_neg (Nat.not_lt_zero _)]

variable {machine : Machine σ} {Inv : σ → Prop} {At : Nat → Nat → σ → Prop} {start : Nat → Nat}

theorem Circulates.fetches (h : Circulates machine Inv At start) {n p : Nat} {s : σ} (hat : At n p s)
    (hp : p ≤ n) (m : Nat) : (Runs.trace machine.step s (List.replicate m .fetch)).1 =
      (List.range m).map fun k => circular n (p + k) := by
  induction m generalizing p s with
  | zero => rfl
  | succ m ih =>
    rw [List.replicate_succ, List.range_succ_eq_map, List.map_cons, List.map_map, Runs.trace]
    by_cases hlt : p < n
    · obtain ⟨hrow, hafter⟩ := h.next n p s hat hlt
      have hrest := ih hafter hlt
      apply congrArg₂ List.cons
      · rw [Nat.add_zero, circular_of_lt hlt]
        exact hrow
      · refine hrest.trans (List.map_congr_left fun k _ => ?_)
        rw [Function.comp_apply, Nat.succ_eq_add_one, Nat.add_right_comm, Nat.add_assoc p]
    · obtain rfl : p = n := by omega
      obtain ⟨hnone, hafter⟩ := h.restart p s hat
      have hrest := ih hafter (Nat.zero_le p)
      apply congrArg₂ List.cons
      · rw [Nat.add_zero, circular_self]
        exact hnone
      · refine hrest.trans (List.map_congr_left fun k _ => ?_)
        rw [Function.comp_apply, Nat.succ_eq_add_one, Nat.zero_add, ← circular_add]
        congr 1
        omega

theorem circular_eq_rows_iff {n p : Nat} (hp : p ≤ n) (m : Nat) :
    ((List.range m).map fun k => circular n (p + k)) = rows n m ↔
      n = 0 ∨ m = 0 ∨ (p = 0 ∧ m ≤ n + 1) := by
  rw [rows_eq_map, List.map_inj_left]
  simp only [List.mem_range]
  constructor
  · intro hrows
    by_contra hnot
    simp only [not_or, not_and, not_le] at hnot
    obtain ⟨hn, hm, hpast⟩ := hnot
    have hfirst := hrows 0 (Nat.pos_of_ne_zero hm)
    rw [if_pos (Nat.pos_of_ne_zero hn), Nat.add_zero] at hfirst
    have hstart : p = 0 := by
      by_cases hlt : p < n
      · rw [circular_of_lt hlt] at hfirst
        exact Option.some.inj hfirst
      · obtain rfl : p = n := by omega
        rw [circular_self] at hfirst
        cases hfirst
    have hagain := hrows (n + 1) (hpast hstart)
    rw [hstart, Nat.zero_add, ← Nat.add_zero (n + 1), circular_add,
      circular_of_lt (Nat.pos_of_ne_zero hn), if_neg (by omega)] at hagain
    cases hagain
  · rintro (rfl | rfl | ⟨rfl, hm⟩) k hk
    · rw [circular_zero, if_neg (Nat.not_lt_zero k)]
    · exact absurd hk (Nat.not_lt_zero k)
    · rw [Nat.zero_add]
      by_cases hlt : k < n
      · rw [circular_of_lt hlt, if_pos hlt]
      · obtain rfl : k = n := by omega
        rw [circular_self, if_neg hlt]

/-- A circulating cursor obeys its law in the runs that stop at the first miss, or never have a row
to hand over; from the second row on it never does. -/
theorem Circulates.obeys_iff_phase (h : Circulates machine Inv At start) {s : σ} (hs : Inv s)
    (calls : List Call) : machine.Obeys s calls ↔
      ∀ n m, Phase calls n m → n = 0 ∨ m = 0 ∨ (start n = 0 ∧ m ≤ n + 1) := by
  have hphase : ∀ s, Inv s → ∀ n m,
      (Runs.trace machine.step s (.execute n :: List.replicate m .fetch)).1 = none :: rows n m ↔
        n = 0 ∨ m = 0 ∨ (start n = 0 ∧ m ≤ n + 1) := by
    intro s hs n m
    rw [Runs.trace, ← circular_eq_rows_iff (h.start_le n),
      ← h.fetches (h.execute n s hs) (h.start_le n) m, List.cons.injEq]
    exact and_iff_right rfl
  have hrun := fun pre => Runs.invariant h.keeps hs pre
  constructor
  · rintro hobeys n m ⟨pre, post, hcalls⟩
    exact (hphase _ (hrun pre) n m).mp (hobeys pre n m post hcalls)
  · intro hstops pre n m post hcalls
    exact (hphase _ (hrun pre) n m).mpr (hstops n m ⟨pre, post, hcalls⟩)

end Coffee.Library.Cursor
