import Coffee.Logger.BacktraceWriter
import Mathlib.Data.List.Infix

/-! # Trace files

A `CircularTraceWriter` appends its lines to a file, looks at the size of it every 128 lines, and puts
an oversized one in the place of the older file. The files are part of the state, and each call says
how the system calls under it end.
-/

namespace Coffee.Logger

open Coffee.Basis Coffee.Library Runs

/-- How `open`, `fstat` and `rename` end, and the text of `errno` where one fails. -/
structure System where
  opens : Bool
  stats : Bool
  renames : Bool
  strerror : Bytes

structure CircularTraceWriter where
  m_path : Bytes
  m_maxKbSize : UInt64
  /-- `m_stream` is not `NullStream`. -/
  m_stream : Bool
  m_lineno : Nat
  m_loops : Nat
  /-- The bytes in the file `m_path`, and in the one beside it that ends in `.old`. -/
  file : Bytes
  old : Bytes
  cerr : List Bytes

namespace CircularTraceWriter

def MinimalKbSize : UInt64 := 256

def CheckSizePeriod : Nat := 128

/-- The size is computed in `size_t`. -/
def instantiate (path : Bytes) (maxKbSize : UInt64) (file old : Bytes) : CircularTraceWriter :=
  ⟨path, max MinimalKbSize maxKbSize * 1024, false, 0, 0, file, old, []⟩

def openStream (system : System) (writer : CircularTraceWriter) :
    Except RuntimeException CircularTraceWriter :=
  if system.opens then .ok { writer with m_stream := true }
  else .error ⟨text "Can not open file: " ++ writer.m_path ++ text ". Error: " ++ system.strerror⟩

def oversizedStream (system : System) (writer : CircularTraceWriter) :
    Except RuntimeException Bool :=
  if writer.m_stream = false then .ok false
  else if system.stats then .ok (decide (writer.m_maxKbSize.toNat < writer.file.length))
  else .error
    ⟨text "Can not get file length: " ++ writer.m_path ++ text ". Error: " ++ system.strerror⟩

def closeStream (writer : CircularTraceWriter) : CircularTraceWriter :=
  { writer with m_stream := false }

/-- A file that can not be renamed is truncated. -/
def renameFile (system : System) (writer : CircularTraceWriter) :
    CircularTraceWriter × Option RuntimeException :=
  if system.renames then ({ writer with file := [], old := writer.file }, none)
  else ({ writer with file := [] },
    some ⟨text "Could not rename: " ++ writer.m_path ++ text ". Error: " ++ system.strerror⟩)

/-- The block that `initialize` and `apply` share. The exception, if any, leaves it. -/
def checkSize (system : System) (writer : CircularTraceWriter) :
    CircularTraceWriter × Option RuntimeException :=
  match writer.oversizedStream system with
  | .error ex => (writer, some ex)
  | .ok false => (writer, none)
  | .ok true =>
    match writer.closeStream.renameFile system with
    | (renamed, some ex) => (renamed, some ex)
    | (renamed, none) =>
      match renamed.openStream system with
      | .error ex => (renamed, some ex)
      | .ok opened => ({ opened with m_loops := opened.m_loops + 1 }, none)

/-- The function `initialize`. -/
def initializeWriter (system : System) (writer : CircularTraceWriter) :
    CircularTraceWriter × Option RuntimeException :=
  match writer.openStream system with
  | .error ex => (writer, some ex)
  | .ok opened => opened.checkSize system

/-- The line and its end are written, and counted. -/
def writeLine (line : Bytes) (writer : CircularTraceWriter) : CircularTraceWriter :=
  { writer with file := writer.file ++ (line ++ text "\n"), m_lineno := writer.m_lineno + 1 }

def apply (level : Level) (line : Bytes) (system : System) (writer : CircularTraceWriter) :
    CircularTraceWriter :=
  if writer.m_stream = false then
    if level ≤ .Error then
      { writer with cerr := writer.cerr ++ [line], m_lineno := writer.m_lineno + 1 }
    else writer
  else if (writer.writeLine line).m_lineno % CheckSizePeriod ≠ 0 then writer.writeLine line
  else match (writer.writeLine line).checkSize system with
    | (checked, none) => checked
    | (checked, some ex) => { checked with cerr := checked.cerr ++ [ex.what] }

inductive Call where
  | initializeWriter (system : System)
  | apply (level : Level) (line : Bytes) (system : System)

def Call.system : Call → System
  | .initializeWriter system => system
  | .apply _ _ system => system

/-- The bytes that a call puts into the file, and the writer behind it. -/
def step (writer : CircularTraceWriter) : Call → Bytes × CircularTraceWriter
  | .initializeWriter system => ([], (writer.initializeWriter system).1)
  | .apply level line system =>
    (if writer.m_stream then line ++ text "\n" else [], writer.apply level line system)

/-- The two files hold an end of the history, and drop nothing of it unless the older one is longer
than the limit. -/
structure Keeps (history : Bytes) (writer : CircularTraceWriter) : Prop where
  suffix : writer.old ++ writer.file <:+ history
  recent : writer.old ++ writer.file = history ∨ writer.m_maxKbSize.toNat < writer.old.length

variable {writer : CircularTraceWriter} {system : System} {history : Bytes} {call : Call}
  {calls : List Call}

/-- The block leaves the writer as it is, or rotates an oversized file away. -/
theorem checkSize_cases (system : System) (writer : CircularTraceWriter) :
    (writer.checkSize system).1 = writer ∨
    writer.m_stream = true ∧ writer.m_maxKbSize.toNat < writer.file.length ∧
      ∃ stream loops, (writer.checkSize system).1 = { writer with
        m_stream := stream, m_loops := loops, file := []
        old := if system.renames then writer.file else writer.old } := by
  unfold checkSize
  cases hsize : writer.oversizedStream system with
  | error ex => exact .inl rfl
  | ok oversized =>
    cases oversized with
    | false => exact .inl rfl
    | true =>
      have hover : writer.m_stream = true ∧ writer.m_maxKbSize.toNat < writer.file.length := by
        unfold oversizedStream at hsize
        split at hsize
        · cases hsize
        · next hstream =>
          split at hsize
          · exact ⟨by simpa using hstream, by simpa using hsize⟩
          · cases hsize
      refine .inr ⟨hover.1, hover.2, ?_⟩
      cases hrenames : system.renames
      · exact ⟨false, writer.m_loops, by simp [renameFile, closeStream, hrenames]⟩
      · cases hopens : system.opens
        · exact ⟨false, writer.m_loops, by
            simp [renameFile, closeStream, openStream, hrenames, hopens]⟩
        · exact ⟨true, writer.m_loops + 1, by
            simp [renameFile, closeStream, openStream, hrenames, hopens]⟩

theorem Keeps.checkSize (h : Keeps history writer) (hrenames : system.renames = true) :
    Keeps history (writer.checkSize system).1 := by
  obtain heq | ⟨-, hover, stream, loops, heq⟩ := checkSize_cases system writer <;> rw [heq]
  · exact h
  · rw [if_pos hrenames]
    refine ⟨?_, .inr hover⟩
    rw [List.append_nil]
    exact (List.suffix_append _ _).trans h.suffix

theorem apply_closed (hstream : writer.m_stream = false) (level : Level) (line : Bytes)
    (system : System) : writer.apply level line system =
      if level ≤ .Error then
        { writer with cerr := writer.cerr ++ [line], m_lineno := writer.m_lineno + 1 }
      else writer := by
  rw [apply, if_pos hstream]

theorem apply_open (hstream : writer.m_stream = true) (level : Level) (line : Bytes)
    (system : System) : ∃ cerr, writer.apply level line system =
      { (if (writer.m_lineno + 1) % CheckSizePeriod ≠ 0 then writer.writeLine line
        else ((writer.writeLine line).checkSize system).1) with cerr := cerr } := by
  have hlineno : (writer.writeLine line).m_lineno = writer.m_lineno + 1 := rfl
  rw [apply, if_neg (by simp [hstream]), hlineno]
  split
  · exact ⟨writer.cerr, rfl⟩
  · split
    · next checked heq => exact ⟨checked.cerr, by rw [heq]⟩
    · next checked ex heq => exact ⟨checked.cerr ++ [ex.what], by rw [heq]⟩

theorem Keeps.writeLine (h : Keeps history writer) (line : Bytes) :
    Keeps (history ++ (line ++ text "\n")) (writer.writeLine line) where
  suffix := by
    obtain ⟨dropped, hdropped⟩ := h.suffix
    exact ⟨dropped, by simp [CircularTraceWriter.writeLine, ← hdropped]⟩
  recent := h.recent.imp_left fun heq => by simp [CircularTraceWriter.writeLine, ← heq]

theorem Keeps.step (h : Keeps history writer) (hrenames : call.system.renames = true) :
    Keeps (history ++ (writer.step call).1) (writer.step call).2 := by
  cases call with
  | initializeWriter system =>
    simp only [CircularTraceWriter.step, initializeWriter, openStream, List.append_nil]
    split
    · exact h
    · next opened hopened =>
      split at hopened <;> cases hopened
      exact Keeps.checkSize ⟨h.suffix, h.recent⟩ hrenames
  | apply level line system =>
    simp only [CircularTraceWriter.step]
    cases hstream : writer.m_stream
    · rw [apply_closed hstream, if_neg Bool.false_ne_true, List.append_nil]
      split
      · exact ⟨h.suffix, h.recent⟩
      · exact h
    · obtain ⟨cerr, hcerr⟩ := apply_open hstream level line system
      rw [hcerr, if_pos rfl]
      split
      · exact ⟨(h.writeLine line).suffix, (h.writeLine line).recent⟩
      · have hchecked := (h.writeLine line).checkSize hrenames
        exact ⟨hchecked.suffix, hchecked.recent⟩

/-- The line that a call leaves on `cerr` when the stream is closed. -/
def error? : Call → Option Bytes
  | .apply level line _ => if level ≤ .Error then some line else none
  | .initializeWriter _ => none

theorem closed_step (hstream : writer.m_stream = false)
    (hcall : ∀ system, call ≠ .initializeWriter system) :
    ∃ lineno, (writer.step call) = ([], { writer with
      m_lineno := lineno, cerr := writer.cerr ++ (error? call).toList }) := by
  cases call with
  | initializeWriter system => exact absurd rfl (hcall system)
  | apply level line system =>
    by_cases hlevel : level ≤ .Error
    · exact ⟨writer.m_lineno + 1, by simp [CircularTraceWriter.step, apply, error?, hstream, hlevel]⟩
    · refine ⟨writer.m_lineno, ?_⟩
      cases writer
      simp_all [CircularTraceWriter.step, apply, error?]

/-- Without its stream the writer only copies the lines of error, and nothing opens it again. -/
theorem closed_run (hstream : writer.m_stream = false)
    (hcalls : ∀ system, .initializeWriter system ∉ calls) : ∃ lineno,
    (trace step writer calls).2 = { writer with
      m_lineno := lineno, cerr := writer.cerr ++ calls.filterMap error? } := by
  induction calls generalizing writer with
  | nil => exact ⟨writer.m_lineno, by simp [trace]⟩
  | cons call calls ih =>
    obtain ⟨lineno, hstep⟩ := @closed_step writer call hstream fun system heq =>
      hcalls system (heq ▸ List.mem_cons_self)
    simp only [trace, hstep]
    obtain ⟨lineno', hbehind⟩ := @ih { writer with
        m_lineno := lineno, cerr := writer.cerr ++ (error? call).toList } hstream
      fun system hmem => hcalls system (List.mem_cons_of_mem _ hmem)
    refine ⟨lineno', ?_⟩
    rw [hbehind]
    cases herror : error? call <;> simp [herror]

theorem keeps_run (h : Keeps history writer) (hrenames : ∀ call ∈ calls, call.system.renames = true) :
    Keeps (history ++ (trace step writer calls).1.flatten) (trace step writer calls).2 := by
  induction calls generalizing writer history with
  | nil => simpa [trace] using h
  | cons call calls ih =>
    have hstep := h.step (hrenames call List.mem_cons_self)
    simpa [trace, List.append_assoc] using
      ih hstep fun call' hcall' => hrenames call' (List.mem_cons_of_mem _ hcall')

/-- No system call fails, and the line, if any, has no more than `length` bytes. -/
def Call.Sound (length : Nat) : Call → Prop
  | .initializeWriter system => system.opens ∧ system.stats ∧ system.renames
  | .apply _ line system =>
    system.opens ∧ system.stats ∧ system.renames ∧ line.length ≤ length

/-- The file has outgrown the limit by no more than the lines since it was last looked at. -/
structure Bounded (length limit : Nat) (writer : CircularTraceWriter) : Prop where
  stream : writer.m_stream = true
  file : writer.file.length ≤
    writer.m_maxKbSize.toNat + writer.m_lineno % CheckSizePeriod * (length + 1)
  old : writer.old.length ≤ limit
  limit : writer.m_maxKbSize.toNat + CheckSizePeriod * (length + 1) ≤ limit

theorem checkSize_of_sound (hstream : writer.m_stream = true) (hopens : system.opens = true)
    (hstats : system.stats = true) (hrenames : system.renames = true) :
    (writer.checkSize system).1 =
      if writer.m_maxKbSize.toNat < writer.file.length then
        { writer with m_loops := writer.m_loops + 1, file := [], old := writer.file }
      else writer := by
  cases writer
  simp only at hstream
  subst hstream
  simp only [checkSize, oversizedStream, Bool.true_eq_false, if_false, hstats, if_true]
  split
  · next heq => cases heq
  · next heq =>
    rw [Except.ok.injEq, decide_eq_false_iff_not] at heq
    rw [if_neg heq]
  · next heq =>
    rw [Except.ok.injEq, decide_eq_true_iff] at heq
    rw [if_pos heq]
    simp [renameFile, closeStream, openStream, hrenames, hopens]

theorem checkSize_bounded {length limit : Nat} (hstream : writer.m_stream = true)
    (hopens : system.opens = true) (hstats : system.stats = true)
    (hrenames : system.renames = true) (hfile : writer.file.length ≤ limit)
    (hold : writer.old.length ≤ limit)
    (hlimit : writer.m_maxKbSize.toNat + CheckSizePeriod * (length + 1) ≤ limit) :
    Bounded length limit (writer.checkSize system).1 := by
  rw [checkSize_of_sound hstream hopens hstats hrenames]
  split
  · exact ⟨hstream, Nat.zero_le _, hfile, hlimit⟩
  · exact ⟨hstream, by omega, hold, hlimit⟩

theorem Bounded.apply {length limit : Nat} (h : Bounded length limit writer) {level : Level}
    {line : Bytes} (hopens : system.opens = true) (hstats : system.stats = true)
    (hrenames : system.renames = true) (hline : line.length ≤ length) :
    Bounded length limit (writer.apply level line system) := by
  obtain ⟨cerr, hcerr⟩ := apply_open h.stream level line system
  have hfile := h.file
  have hlength : (writer.writeLine line).file.length = writer.file.length + (line.length + 1) := by
    simp [writeLine, text]
  rw [hcerr]
  split
  · next hcheck =>
    refine ⟨h.stream, ?_, h.old, h.limit⟩
    have hmod : (writer.m_lineno + 1) % CheckSizePeriod =
        writer.m_lineno % CheckSizePeriod + 1 := by
      simp only [CheckSizePeriod] at hcheck ⊢
      omega
    show (writer.writeLine line).file.length ≤ writer.m_maxKbSize.toNat +
      (writer.m_lineno + 1) % CheckSizePeriod * (length + 1)
    rw [hlength, hmod, Nat.add_mul]
    omega
  · have hmod : writer.m_lineno % CheckSizePeriod + 1 ≤ CheckSizePeriod :=
      Nat.mod_lt _ (by decide)
    have hmul := Nat.mul_le_mul_right (length + 1) hmod
    rw [Nat.add_mul] at hmul
    have hlimit := h.limit
    have hchecked := @checkSize_bounded (writer.writeLine line) system length limit h.stream hopens
      hstats hrenames (by omega) h.old hlimit
    exact ⟨hchecked.stream, hchecked.file, hchecked.old, hchecked.limit⟩

theorem Bounded.step {length limit : Nat} (h : Bounded length limit writer)
    (hsound : call.Sound length) : Bounded length limit (writer.step call).2 := by
  cases call with
  | initializeWriter system =>
    obtain ⟨hopens, hstats, hrenames⟩ := hsound
    have hfile := h.file
    have hmod : writer.m_lineno % CheckSizePeriod ≤ CheckSizePeriod :=
      (Nat.mod_lt _ (by decide)).le
    have hmul := Nat.mul_le_mul_right (length + 1) hmod
    have hlimit := h.limit
    have hopened : writer.initializeWriter system =
        checkSize system { writer with m_stream := true } := by
      simp [initializeWriter, openStream, hopens]
    simp only [CircularTraceWriter.step, hopened]
    exact checkSize_bounded rfl hopens hstats hrenames (by simp only; omega) h.old hlimit
  | apply level line system =>
    obtain ⟨hopens, hstats, hrenames, hline⟩ := hsound
    exact h.apply hopens hstats hrenames hline

theorem bounded_run {length limit : Nat} (h : Bounded length limit writer)
    (hsound : ∀ call ∈ calls, call.Sound length) :
    Bounded length limit (trace step writer calls).2 := by
  induction calls generalizing writer with
  | nil => exact h
  | cons call calls ih =>
    exact ih (h.step (hsound call List.mem_cons_self))
      fun call' hcall' => hsound call' (List.mem_cons_of_mem _ hcall')

theorem checkSize_maxKbSize (system : System) (writer : CircularTraceWriter) :
    (writer.checkSize system).1.m_maxKbSize = writer.m_maxKbSize := by
  obtain heq | ⟨-, -, stream, loops, heq⟩ := checkSize_cases system writer <;> rw [heq]

theorem step_maxKbSize (writer : CircularTraceWriter) (call : Call) :
    (writer.step call).2.m_maxKbSize = writer.m_maxKbSize := by
  cases call with
  | initializeWriter system =>
    simp only [step, initializeWriter, openStream]
    split
    · rfl
    · next opened hopened =>
      split at hopened <;> cases hopened
      exact checkSize_maxKbSize system _
  | apply level line system =>
    simp only [step]
    cases hstream : writer.m_stream
    · rw [apply_closed hstream]
      split <;> rfl
    · obtain ⟨cerr, hcerr⟩ := apply_open hstream level line system
      rw [hcerr]
      split
      · rfl
      · exact checkSize_maxKbSize system _

theorem run_maxKbSize (writer : CircularTraceWriter) (calls : List Call) :
    (trace step writer calls).2.m_maxKbSize = writer.m_maxKbSize := by
  induction calls generalizing writer with
  | nil => rfl
  | cons call calls ih => exact (ih _).trans (step_maxKbSize writer call)

def sampleCalls : List Call :=
  [.initializeWriter ⟨true, true, true, []⟩, .apply .Warning (text "c") ⟨true, true, true, []⟩]

end CircularTraceWriter

end Coffee.Logger
