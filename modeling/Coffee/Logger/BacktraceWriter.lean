import Coffee.Basis.Text
import Coffee.Library.Runs
import Mathlib.Data.List.DropRight

/-! # Backtraces

A `BacktraceWriter` holds the lines above `Error` back and hands the last ones over to its
`CircularTraceWriter` in front of a line of error.
-/

namespace Coffee.Logger

open Coffee.Basis Coffee.Library

inductive Level where
  | None | Emergency | Alert | Critical | Error | Warning | Notice | Information | Debug
  | Local0 | Local1 | Local2 | Local3 | Local4 | Local5 | Local6 | Local7
deriving DecidableEq, Repr

namespace Level

def value : Level → Int
  | None => -1
  | Emergency => 0
  | Alert => 1
  | Critical => 2
  | Error => 3
  | Warning => 4
  | Notice => 5
  | Information => 6
  | Debug => 7
  | Local0 => 8
  | Local1 => 9
  | Local2 => 10
  | Local3 => 11
  | Local4 => 12
  | Local5 => 13
  | Local6 => 14
  | Local7 => 15

instance : LE Level := ⟨fun level other => level.value ≤ other.value⟩

instance (level other : Level) : Decidable (level ≤ other) :=
  inferInstanceAs (Decidable (level.value ≤ other.value))

end Level

abbrev Line := Level × Bytes

structure BacktraceWriter where
  m_backtrackingLength : Int
  m_lines : List Line
  m_lineCounter : Int
  m_lowestLevel : Level
deriving DecidableEq, Repr

namespace BacktraceWriter

def MaxBacktrackingLength : Int := 4096

def instantiate (backtrackingLength : Int) : BacktraceWriter :=
  ⟨min backtrackingLength MaxBacktrackingLength, [], 0, .Debug⟩

def setLowestLeveL (lowestLevel : Level) (writer : BacktraceWriter) : BacktraceWriter :=
  if ¬ lowestLevel ≤ .Error then { writer with m_lowestLevel := lowestLevel } else writer

/-- The lines that reach `CircularTraceWriter::apply`, and the writer behind it. The static level of
the logger, which `apply` does not read, is the lowest level meanwhile and then what it was. -/
def backtrace (writer : BacktraceWriter) : List Line × BacktraceWriter :=
  (writer.m_lines, { writer with m_lines := [], m_lineCounter := 0 })

/-- `none` is `pop_front` on an empty list. -/
def apply (level : Level) (line : Bytes) (writer : BacktraceWriter) :
    Option (List Line × BacktraceWriter) :=
  if level ≤ .Error then
    let (lines, writer) := writer.backtrace
    some (lines ++ [(level, line)], writer)
  else if level ≤ writer.m_lowestLevel then
    if writer.m_lineCounter = writer.m_backtrackingLength then
      match writer.m_lines with
      | [] => none
      | _ :: lines => some ([], { writer with m_lines := lines ++ [(level, line)] })
    else some ([], { writer with
        m_lines := writer.m_lines ++ [(level, line)]
        m_lineCounter := writer.m_lineCounter + 1 })
  else some ([], writer)

inductive Call where
  | apply (level : Level) (line : Bytes)
  | setLowestLeveL (lowestLevel : Level)
deriving DecidableEq, Repr

def step (writer : BacktraceWriter) : Call → Option (List Line × BacktraceWriter)
  | .apply level line => writer.apply level line
  | .setLowestLeveL lowestLevel => some ([], writer.setLowestLeveL lowestLevel)

/-- The lowest level in force behind a call. -/
def lowestLevel (lowest : Level) : Call → Level
  | .apply _ _ => lowest
  | .setLowestLeveL lowestLevel => if lowestLevel ≤ .Error then lowest else lowestLevel

/-- A line above `Error` and not above the lowest level in force. -/
def Stored (lowest : Level) : Call → Prop
  | .apply level _ => ¬ level ≤ .Error ∧ level ≤ lowest
  | .setLowestLeveL _ => False

instance (lowest : Level) : (call : Call) → Decidable (Stored lowest call)
  | .apply _ _ => inferInstanceAs (Decidable (_ ∧ _))
  | .setLowestLeveL _ => .isFalse id

/-- All lines that were stored since the last line of error. -/
structure Received where
  lowest : Level
  stored : List Line

/-- What a call should hand over: a line of error behind the last ones of the stored lines. -/
def expected (length : Nat) (received : Received) : Call → List Line × Received
  | .apply level line =>
    if level ≤ .Error then
      (received.stored.rtake length ++ [(level, line)], { received with stored := [] })
    else if level ≤ received.lowest then
      ([], { received with stored := received.stored ++ [(level, line)] })
    else ([], received)
  | .setLowestLeveL lowest =>
    ([], { received with lowest := lowestLevel received.lowest (.setLowestLeveL lowest) })

/-- Behind any front of the calls the lines handed over are the expected ones, and the counter is the
number of the lines that are held back and within the limit. -/
def Keeps (writer : BacktraceWriter) (calls : List Call) : Prop :=
  ∀ pre, pre <+: calls → ∃ after : BacktraceWriter,
    Runs.trace? step writer pre = some ((Runs.trace (expected writer.m_backtrackingLength.toNat)
      ⟨writer.m_lowestLevel, []⟩ pre).1, after) ∧
    after.m_lineCounter = after.m_lines.length ∧
    after.m_lineCounter ≤ writer.m_backtrackingLength

variable {writer : BacktraceWriter} {calls : List Call}

theorem rtake_succ (lines : List Line) (n : Nat) :
    (lines.length ≤ n ∧ lines.rtake (n + 1) = lines ∧ lines.rtake n = lines) ∨
      ∃ line, lines.rtake (n + 1) = line :: lines.rtake n ∧ (lines.rtake n).length = n := by
  by_cases hshort : lines.length ≤ n
  · have hall : ∀ m, lines.length ≤ m → lines.rtake m = lines := by
      intro m hm
      rw [List.rtake, Nat.sub_eq_zero_of_le hm, List.drop_zero]
    exact .inl ⟨hshort, hall _ (Nat.le_succ_of_le hshort), hall _ hshort⟩
  · have hlt : lines.length - (n + 1) < lines.length := by omega
    have hnext : lines.length - (n + 1) + 1 = lines.length - n := by omega
    refine .inr ⟨lines[lines.length - (n + 1)], ?_, ?_⟩
    · rw [List.rtake, List.drop_eq_getElem_cons hlt, hnext, List.rtake]
    · rw [List.rtake, List.length_drop]
      omega

/-- The writer holds the last lines of those that were stored. -/
structure Holds (limit : Nat) (writer : BacktraceWriter) (received : Received) : Prop where
  length : writer.m_backtrackingLength = limit
  lines : writer.m_lines = received.stored.rtake limit
  counter : writer.m_lineCounter = writer.m_lines.length
  lowest : writer.m_lowestLevel = received.lowest

theorem setLowestLeveL_eq (lowest : Level) (writer : BacktraceWriter) :
    writer.setLowestLeveL lowest =
      { writer with m_lowestLevel := lowestLevel writer.m_lowestLevel (.setLowestLeveL lowest) } := by
  unfold setLowestLeveL lowestLevel
  dsimp only
  by_cases hlow : lowest ≤ .Error
  · simp only [hlow, not_true_eq_false, if_false, if_true]
  · simp only [hlow, not_false_eq_true, if_false, if_true]

/-- A line that is not stored needs no room. -/
theorem Holds.step_of_not_stored {received : Received} {limit : Nat}
    (h : Holds limit writer received) {call : Call} (hcall : ¬ Stored received.lowest call) :
    ∃ after, BacktraceWriter.step writer call = some ((expected limit received call).1, after) ∧
      Holds limit after (expected limit received call).2 := by
  obtain ⟨m_backtrackingLength, m_lines, m_lineCounter, m_lowestLevel⟩ := writer
  obtain ⟨hlength, hlines, hcounter, hlowest⟩ := h
  dsimp only at hlength hlines hcounter hlowest
  subst hlength hcounter hlowest
  cases call with
  | setLowestLeveL lowest =>
    refine ⟨_, rfl, ?_⟩
    rw [setLowestLeveL_eq]
    exact ⟨rfl, hlines, rfl, rfl⟩
  | apply level line =>
    unfold BacktraceWriter.step expected apply
    dsimp only
    split
    · rw [backtrace, hlines]
      exact ⟨_, rfl, rfl, (@List.rtake_nil Line limit).symm, rfl, rfl⟩
    · rename_i habove
      rw [if_neg fun hlow => hcall ⟨habove, hlow⟩, if_neg fun hlow => hcall ⟨habove, hlow⟩]
      exact ⟨_, rfl, rfl, hlines, rfl, rfl⟩

theorem Holds.step {n : Nat} {received : Received} (h : Holds (n + 1) writer received)
    (call : Call) : ∃ after, step writer call = some ((expected (n + 1) received call).1, after) ∧
      Holds (n + 1) after (expected (n + 1) received call).2 := by
  by_cases hcall : Stored received.lowest call
  · obtain ⟨m_backtrackingLength, m_lines, m_lineCounter, m_lowestLevel⟩ := writer
    obtain ⟨hlength, hlines, hcounter, hlowest⟩ := h
    dsimp only at hlength hlines hcounter hlowest
    subst hlength hcounter hlowest
    cases call with
    | setLowestLeveL lowest => exact hcall.elim
    | apply level line =>
      unfold BacktraceWriter.step expected apply
      dsimp only
      rw [if_neg hcall.1, if_neg hcall.1, if_pos hcall.2, if_pos hcall.2]
      obtain ⟨hshort, hall, hall'⟩ | ⟨first, hfull, hrest⟩ := rtake_succ received.stored n
      · rw [hall] at hlines
        subst hlines
        rw [if_neg (by omega)]
        refine ⟨_, rfl, rfl, ?_, ?_, rfl⟩
        · rw [List.rtake_concat_succ, hall']
        · rw [List.length_append]
          rfl
      · rw [hfull] at hlines
        subst hlines
        rw [List.length_cons, hrest, if_pos rfl]
        refine ⟨_, rfl, rfl, ?_, ?_, rfl⟩
        · rw [List.rtake_concat_succ]
        · rw [List.length_append, hrest]
          rfl
  · exact h.step_of_not_stored hcall

/-- A writer with room for a line keeps the last lines. -/
theorem keeps_of_pos {n : Nat} (hlength : writer.m_backtrackingLength = (n + 1 : Nat))
    (hlines : writer.m_lines = []) (hcounter : writer.m_lineCounter = 0) (calls : List Call) :
    Keeps writer calls := by
  intro pre _
  have hholds : Holds (n + 1) writer ⟨writer.m_lowestLevel, []⟩ :=
    ⟨hlength, by rw [hlines, List.rtake_nil], by rw [hcounter, hlines]; rfl, rfl⟩
  obtain ⟨after, htrace, hafter⟩ :=
    Runs.trace?_simulation (fun _ _ call h => h.step call) hholds pre
  rw [hlength, Int.toNat_natCast]
  refine ⟨after, htrace, hafter.counter, ?_⟩
  rw [hafter.counter, hafter.lines, List.rtake, List.length_drop]
  omega

theorem Holds.step_of_stored {received : Received} (h : Holds 0 writer received) {call : Call}
    (hcall : Stored received.lowest call) : BacktraceWriter.step writer call = none := by
  have hlines : writer.m_lines = [] := h.lines.trans (List.rtake_zero _)
  have hfull : writer.m_lineCounter = writer.m_backtrackingLength := by
    rw [h.counter, h.length, hlines]
    rfl
  cases call with
  | setLowestLeveL lowest => exact hcall.elim
  | apply level line =>
    rw [← h.lowest] at hcall
    rw [BacktraceWriter.step, apply, if_neg hcall.1, if_pos hcall.2, if_pos hfull, hlines]

theorem expected_lowest (limit : Nat) (received : Received) (call : Call) :
    (expected limit received call).2.lowest = lowestLevel received.lowest call := by
  cases call with
  | setLowestLeveL lowest => rfl
  | apply level line =>
    unfold expected
    dsimp only
    split
    · rfl
    · split <;> rfl

/-- A writer without room for a line keeps the last lines as long as none is stored. -/
theorem keeps_of_zero (hlength : writer.m_backtrackingLength = 0) (hlines : writer.m_lines = [])
    (hcounter : writer.m_lineCounter = 0) : Keeps writer calls ↔
      Runs.Meets lowestLevel (fun lowest call => ¬ Stored lowest call) writer.m_lowestLevel calls := by
  have hholds : Holds 0 writer ⟨writer.m_lowestLevel, []⟩ :=
    ⟨hlength, by rw [hlines, List.rtake_nil], by rw [hcounter, hlines]; rfl, rfl⟩
  have hshown : ∀ (writer : BacktraceWriter) received, Holds 0 writer received →
      writer.m_lineCounter = writer.m_lines.length ∧ writer.m_lineCounter ≤ 0 := by
    intro writer received h
    refine ⟨h.counter, ?_⟩
    rw [h.counter, h.lines, List.rtake_zero]
    exact Int.le_refl 0
  have hkeeps : Keeps writer calls ↔ Runs.Meets (fun received call => (expected 0 received call).2)
      (fun received call => ¬ Stored received.lowest call) ⟨writer.m_lowestLevel, []⟩ calls := by
    unfold Keeps
    rw [hlength]
    have hbreaks : ∀ (writer : BacktraceWriter) received call, Holds 0 writer received →
        ¬ ¬ Stored received.lowest call → ∀ after,
          step writer call = some ((expected 0 received call).1, after) →
            ¬ (after.m_lineCounter = after.m_lines.length ∧ after.m_lineCounter ≤ 0) := by
      intro writer received call h hstored after hstep
      rw [h.step_of_stored (not_not.mp hstored)] at hstep
      cases hstep
    exact Runs.trace?_iff_meets hshown (fun _ _ call h => @Holds.step_of_not_stored _ _ 0 h call)
      hbreaks hholds
  refine hkeeps.trans ?_
  apply @Runs.meets_simulation _ _ _ _ _ _ _ _ fun received lowest => received.lowest = lowest
  · rintro received _ call rfl
    exact expected_lowest 0 received call
  · rintro received _ call rfl
    exact Iff.rfl
  · rfl

/-- A new writer hands over the last lines in front of each line of error just when its length is
positive, or zero with no line stored in the whole run. -/
theorem keeps_iff_length (backtrackingLength : Int) (calls : List Call) :
    Keeps (instantiate backtrackingLength) calls ↔ 1 ≤ backtrackingLength ∨
      backtrackingLength = 0 ∧
        Runs.Meets lowestLevel (fun lowest call => ¬ Stored lowest call) .Debug calls := by
  have hlength : (instantiate backtrackingLength).m_backtrackingLength =
      min backtrackingLength 4096 := rfl
  by_cases hpos : 1 ≤ backtrackingLength
  · refine iff_of_true (keeps_of_pos (n := (min backtrackingLength 4096).toNat - 1) ?_ rfl rfl calls)
      (.inl hpos)
    rw [hlength]
    omega
  · by_cases hzero : backtrackingLength = 0
    · have hzero' : (instantiate backtrackingLength).m_backtrackingLength = 0 := by
        rw [hlength]
        omega
      rw [keeps_of_zero hzero' rfl rfl]
      simp [hzero, instantiate]
    · refine iff_of_false (fun hkeeps => ?_) (by simp [hpos, hzero])
      obtain ⟨after, htrace, -, hle⟩ := hkeeps [] List.nil_prefix
      cases htrace
      rw [hlength] at hle
      have hcounter : (instantiate backtrackingLength).m_lineCounter = 0 := rfl
      rw [hcounter] at hle
      omega

/-- With a length of zero the first line that is stored is taken from an empty list. -/
theorem not_keeps : ¬ ∀ (backtrackingLength : Int) (calls : List Call),
    Keeps (instantiate backtrackingLength) calls := by
  intro h
  obtain ⟨after, htrace, -⟩ := h 0 [.apply .Debug (text "line")] _ List.prefix_rfl
  revert htrace
  rw [show Runs.trace? step (instantiate 0) [.apply .Debug (text "line")] = none from rfl]
  exact nofun

end BacktraceWriter

end Coffee.Logger
