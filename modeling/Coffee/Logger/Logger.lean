import Coffee.Logger.CircularTraceWriter

/-! # The facade of the writers

`Logger` formats a line once and offers it to its writers, each of which decides on its own whether it
wants the level. A writer is shared, so that it may be attached more than once. The state here is the
one of the class and all writers there are; the calls of a writer are those that reach it.
-/

namespace Coffee.Logger

open Coffee.Basis Coffee.Library Runs

structure UnlimitedTraceWriter where
  m_path : Bytes
  /-- `m_stream` is not `NullStream`. -/
  m_stream : Bool
  file : Bytes
  cerr : List Bytes

namespace UnlimitedTraceWriter

/-- The function `initialize`. -/
def initializeWriter (system : System) (writer : UnlimitedTraceWriter) :
    UnlimitedTraceWriter × Option RuntimeException :=
  if system.opens then ({ writer with m_stream := true }, none)
  else (writer,
    some ⟨text "Can not open file: " ++ writer.m_path ++ text ". Error: " ++ system.strerror⟩)

def apply (level : Level) (line : Bytes) (writer : UnlimitedTraceWriter) : UnlimitedTraceWriter :=
  if writer.m_stream = false then
    if level ≤ .Error then { writer with cerr := writer.cerr ++ [line] } else writer
  else { writer with file := writer.file ++ (line ++ text "\n") }

end UnlimitedTraceWriter

/-- `lines` is what a `BacktraceWriter` adds to its `CircularTraceWriter`, and `syslog` what the system
log has got. -/
inductive Writer where
  | tty (cout : List Bytes)
  | sysLog (syslog : List (Level × Bytes))
  | unlimitedTrace (writer : UnlimitedTraceWriter)
  | circularTrace (writer : CircularTraceWriter)
  | backtrace (lines : BacktraceWriter) (writer : CircularTraceWriter)

def isActive (m_level level : Level) : Bool :=
  if level ≤ .Error then true else level ≤ m_level

namespace Writer

/-- A writer without its stream wants the errors only. -/
def wantsToProcess (m_level level : Level) : Writer → Bool
  | .tty _ => isActive m_level level
  | .sysLog _ => isActive m_level level
  | .unlimitedTrace writer =>
    if writer.m_stream then isActive m_level level else level ≤ .Error
  | .circularTrace writer =>
    if writer.m_stream then isActive m_level level else level ≤ .Error
  | .backtrace lines _ => level ≤ lines.m_lowestLevel

/-- The function `initialize`, and the exception that leaves it. -/
def initializeWriter (system : System) : Writer → Writer × Option RuntimeException
  | .tty cout => (.tty cout, none)
  | .sysLog syslog => (.sysLog syslog, none)
  | .unlimitedTrace writer =>
    let opened := writer.initializeWriter system
    (.unlimitedTrace opened.1, opened.2)
  | .circularTrace writer =>
    let opened := writer.initializeWriter system
    (.circularTrace opened.1, opened.2)
  | .backtrace lines writer =>
    let opened := writer.initializeWriter system
    (.backtrace lines opened.1, opened.2)

/-- The lines that are handed over to `CircularTraceWriter::apply`, each with its own system calls. -/
def handedOver (lines : List Line) (systems : Nat → System) : List CircularTraceWriter.Call :=
  lines.zipIdx.map fun (line, n) => .apply line.1 line.2 (systems n)

/-- `none` is `pop_front` on an empty list. -/
def apply (level : Level) (line : Bytes) (systems : Nat → System) : Writer → Option Writer
  | .tty cout => some (.tty (cout ++ [line]))
  | .sysLog syslog => some (.sysLog (syslog ++ [(level, cStr line)]))
  | .unlimitedTrace writer => some (.unlimitedTrace (writer.apply level line))
  | .circularTrace writer =>
    some (.circularTrace (writer.apply level line (systems 0)))
  | .backtrace lines writer =>
    (lines.apply level line).map fun (handed, lines) =>
      .backtrace lines (trace CircularTraceWriter.step writer (handedOver handed systems)).2

def setLowestLeveL (lowestLevel : Level) : Writer → Writer
  | .backtrace lines writer => .backtrace (lines.setLowestLeveL lowestLevel) writer
  | writer => writer

/-- What reaches a writer. Its own choice is part of an offer. -/
inductive Call where
  | initializeWriter (system : System)
  | offer (m_level level : Level) (line : Bytes) (systems : Nat → System)
  | setLowestLeveL (lowestLevel : Level)

def step (writer : Writer) : Call → Option Writer
  | .initializeWriter system => some (writer.initializeWriter system).1
  | .offer m_level level line systems =>
    if writer.wantsToProcess m_level level then writer.apply level line systems else some writer
  | .setLowestLeveL lowestLevel => some (writer.setLowestLeveL lowestLevel)

/-- The lines that are held back are the last ones of those that were stored. -/
def Sound : Writer → Prop
  | .backtrace lines _ =>
    ∃ n received, BacktraceWriter.Holds (n + 1) lines received ∧ ¬ received.lowest ≤ .Error
  | _ => True

/-- A line of error. -/
def Call.IsError : Call → Prop
  | .offer _ level _ _ => level ≤ .Error
  | .initializeWriter _ | .setLowestLeveL _ => False

def Wants (writer : Writer) : Call → Prop
  | .offer m_level level _ _ => writer.wantsToProcess m_level level = true
  | .initializeWriter _ | .setLowestLeveL _ => False

variable {writer : Writer} {call : Call}

theorem not_level_le_trans {low high : Level} (hlow : low ≤ .Error) (hhigh : ¬ high ≤ .Error) :
    low ≤ high := by
  have hlow' : low.value ≤ Level.Error.value := hlow
  have hhigh' : ¬ high.value ≤ Level.Error.value := hhigh
  show low.value ≤ high.value
  omega

theorem Sound.wants (h : writer.Sound) (hcall : call.IsError) : writer.Wants call := by
  cases call with
  | initializeWriter | setLowestLeveL => exact hcall.elim
  | offer m_level level line systems =>
    have hlevel : level ≤ .Error := hcall
    have hactive : isActive m_level level = true := if_pos hlevel
    cases writer with
    | tty | sysLog => exact hactive
    | unlimitedTrace writer | circularTrace writer =>
      rw [Wants, wantsToProcess]
      split
      · exact hactive
      · exact decide_eq_true hlevel
    | backtrace lines writer =>
      obtain ⟨n, received, hholds, hlowest⟩ := h
      rw [← hholds.lowest] at hlowest
      exact decide_eq_true (not_level_le_trans hlevel hlowest)

/-- What the calls of a `BacktraceWriter` should come to: which calls reach its
`CircularTraceWriter`. -/
def reference (limit : Nat) (received : BacktraceWriter.Received) :
    Call → List CircularTraceWriter.Call × BacktraceWriter.Received
  | .initializeWriter system => ([.initializeWriter system], received)
  | .offer _ level line systems =>
    let expected := BacktraceWriter.expected limit received (.apply level line)
    (handedOver expected.1 systems, expected.2)
  | .setLowestLeveL lowestLevel =>
    ([], (BacktraceWriter.expected limit received (.setLowestLeveL lowestLevel)).2)

open BacktraceWriter (Received Holds expected)

/-- A line that is not wanted would not be stored either. -/
theorem expected_of_unwanted (limit : Nat) {received : Received} {level : Level} (line : Bytes)
    (hlowest : ¬ received.lowest ≤ .Error) (hlevel : ¬ level ≤ received.lowest) :
    expected limit received (.apply level line) = ([], received) := by
  have habove : ¬ level ≤ .Error := fun hlow => hlevel (not_level_le_trans hlow hlowest)
  rw [expected, if_neg habove, if_neg hlevel]

theorem not_lowestLevel_le {lowest : Level} (hlowest : ¬ lowest ≤ .Error)
    (call : BacktraceWriter.Call) : ¬ BacktraceWriter.lowestLevel lowest call ≤ .Error := by
  cases call with
  | apply level line => exact hlowest
  | setLowestLeveL lowestLevel =>
    rw [BacktraceWriter.lowestLevel]
    split
    next => exact hlowest
    next habove => exact habove

theorem backtrace_step {n : Nat} {lines : BacktraceWriter} {received : Received}
    (hholds : Holds (n + 1) lines received) (hlowest : ¬ received.lowest ≤ .Error)
    (circular : CircularTraceWriter) (call : Call) : ∃ after,
      step (.backtrace lines circular) call =
        some (.backtrace after
          (trace CircularTraceWriter.step circular (reference (n + 1) received call).1).2) ∧
      Holds (n + 1) after (reference (n + 1) received call).2 ∧
      ¬ (reference (n + 1) received call).2.lowest ≤ .Error := by
  cases call with
  | initializeWriter system => exact ⟨lines, rfl, hholds, hlowest⟩
  | setLowestLeveL lowestLevel =>
    obtain ⟨after, hafter, hholds'⟩ := hholds.step (.setLowestLeveL lowestLevel)
    obtain ⟨-, rfl⟩ := Prod.mk.inj (Option.some.inj hafter)
    refine ⟨_, rfl, hholds', ?_⟩
    exact not_lowestLevel_le hlowest (.setLowestLeveL lowestLevel)
  | offer m_level level line systems =>
    by_cases hlevel : level ≤ lines.m_lowestLevel
    · obtain ⟨after, hafter, hholds'⟩ := hholds.step (.apply level line)
      refine ⟨after, ?_, hholds', ?_⟩
      · have happly : lines.apply level line =
            some ((expected (n + 1) received (.apply level line)).1, after) := hafter
        have hwants : wantsToProcess m_level level (.backtrace lines circular) = true :=
          decide_eq_true hlevel
        rw [step, if_pos hwants, apply, happly]
        rfl
      · show ¬ (expected (n + 1) received (.apply level line)).2.lowest ≤ .Error
        rw [BacktraceWriter.expected_lowest]
        exact hlowest
    · have hnone := expected_of_unwanted (n + 1) line hlowest (hholds.lowest ▸ hlevel)
      refine ⟨lines, ?_, ?_⟩
      · rw [step, if_neg (by simpa [wantsToProcess] using hlevel), reference, hnone]
        rfl
      · rw [reference, hnone]
        exact ⟨hholds, hlowest⟩

theorem backtrace_run {n : Nat} {lines : BacktraceWriter} {received : Received}
    (hholds : Holds (n + 1) lines received) (hlowest : ¬ received.lowest ≤ .Error)
    (circular : CircularTraceWriter) (calls : List Call) : ∃ after,
      run? step (.backtrace lines circular) calls = some (.backtrace after
        (trace CircularTraceWriter.step circular
          (trace (reference (n + 1)) received calls).1.flatten).2) := by
  induction calls generalizing lines received circular with
  | nil => exact ⟨lines, rfl⟩
  | cons call calls ih =>
    obtain ⟨next, hnext, hholds', hlowest'⟩ := backtrace_step hholds hlowest circular call
    obtain ⟨after, hafter⟩ := ih hholds' hlowest' _
    refine ⟨after, ?_⟩
    rw [run?, hnext, Option.bind_some, hafter, trace, List.flatten_cons, trace_append_snd]

/-- A new `BacktraceWriter` has room for a line. -/
def Fresh : Writer → Prop
  | .backtrace lines _ => ∃ backtrackingLength, 1 ≤ backtrackingLength ∧
    lines = .instantiate backtrackingLength
  | _ => True

theorem holds_instantiate {backtrackingLength : Int} (h : 1 ≤ backtrackingLength) :
    ∃ n, (min backtrackingLength 4096).toNat = n + 1 ∧
      Holds (n + 1) (.instantiate backtrackingLength) ⟨.Debug, []⟩ := by
  obtain ⟨n, hn⟩ := Nat.exists_eq_succ_of_ne_zero
    (show (min backtrackingLength 4096).toNat ≠ 0 by omega)
  refine ⟨n, hn, ?_, (@List.rtake_nil Line _).symm, rfl, rfl⟩
  show min backtrackingLength 4096 = _
  omega

theorem Fresh.sound (h : writer.Fresh) : writer.Sound := by
  cases writer with
  | tty | sysLog | unlimitedTrace | circularTrace => trivial
  | backtrace lines circular =>
    obtain ⟨backtrackingLength, hlength, rfl⟩ := h
    obtain ⟨n, -, hholds⟩ := holds_instantiate hlength
    exact ⟨n, _, hholds, by decide⟩

theorem Sound.step (h : writer.Sound) (call : Call) :
    ∃ after, writer.step call = some after ∧ after.Sound := by
  cases writer with
  | backtrace lines circular =>
    obtain ⟨n, received, hholds, hlowest⟩ := h
    obtain ⟨after, hafter, hholds', hlowest'⟩ := backtrace_step hholds hlowest circular call
    exact ⟨_, hafter, n, _, hholds', hlowest'⟩
  | tty cout =>
    cases call with
    | offer m_level level line systems =>
      rw [Writer.step]
      split <;> exact ⟨_, rfl, trivial⟩
    | initializeWriter | setLowestLeveL => exact ⟨_, rfl, trivial⟩
  | sysLog syslog =>
    cases call with
    | offer m_level level line systems =>
      rw [Writer.step]
      split <;> exact ⟨_, rfl, trivial⟩
    | initializeWriter | setLowestLeveL => exact ⟨_, rfl, trivial⟩
  | unlimitedTrace unlimited =>
    cases call with
    | offer m_level level line systems =>
      rw [Writer.step]
      split <;> exact ⟨_, rfl, trivial⟩
    | initializeWriter | setLowestLeveL => exact ⟨_, rfl, trivial⟩
  | circularTrace circular =>
    cases call with
    | offer m_level level line systems =>
      rw [Writer.step]
      split <;> exact ⟨_, rfl, trivial⟩
    | initializeWriter | setLowestLeveL => exact ⟨_, rfl, trivial⟩

end Writer

abbrev Formatter := Level → Bytes → Bytes → Bytes → Nat → Bytes

def removePathBeforeCoffee (path : Bytes) : Bytes :=
  match search (text "/coffee/") path with
  | none => path
  | some n => path.drop (n + 1)

/-- The static members of `Logger`, and the writers. -/
structure TheLogger (κ : Type) where
  m_level : Level
  m_formatter : Option Formatter
  m_writers : List κ
  writers : κ → Writer

namespace TheLogger

inductive Event (κ : Type) where
  | initializeLogger (writer : κ) (formatter : Formatter) (system : System)
  | add (writer : κ) (system : System)
  | setLevel (level : Level)
  | write (level : Level) (input function file : Bytes) (lineno : Nat) (systems : Nat → Nat → System)
  | setLowestLeveL (writer : κ) (lowestLevel : Level)

variable {κ : Type} [DecidableEq κ] (logger : TheLogger κ)

def stepAt (writers : κ → Writer) (call : κ × Writer.Call) : Option (κ → Writer) :=
  ((writers call.1).step call.2).map (Function.update writers call.1)

omit [DecidableEq κ] in
def wantsToProcess (level : Level) : Bool :=
  if logger.m_writers.isEmpty || logger.m_formatter.isNone then false
  else
    let result := logger.m_writers.any fun writer =>
      (logger.writers writer).wantsToProcess logger.m_level level
    if result = false then false else if isActive logger.m_level level then true else result

/-- The loop over the writers that are attached. -/
def offers (level : Level) (line : Bytes) (systems : Nat → Nat → System) : List (κ × Writer.Call) :=
  logger.m_writers.zipIdx.map fun (writer, n) =>
    (writer, .offer logger.m_level level line (systems n))

def write (level : Level) (input function file : Bytes) (lineno : Nat)
    (systems : Nat → Nat → System) : Option (TheLogger κ) :=
  if !logger.wantsToProcess level then some logger
  else match logger.m_formatter with
    | none => some logger
    | some formatter =>
      let line := formatter level input function (removePathBeforeCoffee file) lineno
      (run? stepAt logger.writers (logger.offers level line systems)).map fun writers =>
        { logger with writers }

def put (writer : κ) (changed : Writer) : TheLogger κ :=
  { logger with writers := Function.update logger.writers writer changed }

/-- A writer that can not be initialized is attached by `initialize`, and not by `add`. -/
def step : Event κ → Option (TheLogger κ)
  | .initializeLogger writer formatter system =>
    some { logger.put writer ((logger.writers writer).initializeWriter system).1 with
      m_writers := [writer], m_formatter := some formatter }
  | .add writer system =>
    if logger.m_formatter.isNone then some logger
    else
      let opened := (logger.writers writer).initializeWriter system
      match opened.2 with
      | some _ => some (logger.put writer opened.1)
      | none =>
        some { logger.put writer opened.1 with m_writers := logger.m_writers ++ [writer] }
  | .setLevel level => some { logger with m_level := level }
  | .write level input function file lineno systems =>
    logger.write level input function file lineno systems
  | .setLowestLeveL writer lowestLevel =>
    some (logger.put writer ((logger.writers writer).setLowestLeveL lowestLevel))

/-- The calls that an event sends to the writers. -/
def issued : Event κ → List (κ × Writer.Call)
  | .initializeLogger writer _ system => [(writer, .initializeWriter system)]
  | .add writer system =>
    if logger.m_formatter.isNone then [] else [(writer, .initializeWriter system)]
  | .setLevel _ => []
  | .write level input function file lineno systems =>
    match logger.m_formatter with
    | none => []
    | some formatter =>
      let line := formatter level input function (removePathBeforeCoffee file) lineno
      logger.offers level line systems
  | .setLowestLeveL writer lowestLevel => [(writer, .setLowestLeveL lowestLevel)]

def callOf (writer : κ) (call : κ × Writer.Call) : Option Writer.Call :=
  if call.1 = writer then some call.2 else none

/-- The calls that reach one writer in a run. -/
def callsTo (writer : κ) : TheLogger κ → List (Event κ) → List Writer.Call
  | _, [] => []
  | logger, event :: events =>
    (logger.issued event).filterMap (callOf writer) ++
      match logger.step event with
      | none => []
      | some logger => callsTo writer logger events

variable {logger : TheLogger κ} {writers : κ → Writer} {calls : List (κ × Writer.Call)}

theorem stepAt_projects (writer : κ) :
    Projects stepAt Writer.step (fun writers => writers writer) (callOf writer) := by
  intro writers call after hafter
  obtain ⟨changed, hchanged, rfl⟩ := Option.map_eq_some_iff.mp hafter
  unfold callOf
  split
  next hcall =>
    split at hcall
    next => cases hcall
    next hne => exact Function.update_of_ne (Ne.symm hne) ..
  next call' hcall =>
    split at hcall
    next heq =>
      cases hcall
      subst heq
      show Function.update writers call.1 changed call.1 ∈ _
      rw [Function.update_self]
      exact hchanged
    next => cases hcall

theorem run_stepAt_of_unwanted
    (h : ∀ call ∈ calls, (writers call.1).step call.2 = some (writers call.1)) :
    run? stepAt writers calls = some writers := by
  induction calls with
  | nil => rfl
  | cons call calls ih =>
    have hstep : stepAt writers call = some writers := by
      rw [stepAt, h call List.mem_cons_self, Option.map_some, Function.update_eq_self]
    rw [run?, hstep, Option.bind_some]
    exact ih fun call' hcall' => h call' (.tail _ hcall')

omit [DecidableEq κ] in
theorem wantsToProcess_eq (level : Level) : logger.wantsToProcess level =
    (logger.m_formatter.isSome && logger.m_writers.any fun writer =>
      (logger.writers writer).wantsToProcess logger.m_level level) := by
  unfold wantsToProcess
  cases logger.m_formatter with
  | none => simp
  | some formatter =>
    cases logger.m_writers with
    | nil => rfl
    | cons writer rest =>
      cases hany : (writer :: rest).any fun writer =>
        (logger.writers writer).wantsToProcess logger.m_level level <;> simp

/-- Nobody misses anything when a line is dropped in front of the formatter. -/
theorem write_eq (level : Level) (input function file : Bytes) (lineno : Nat)
    (systems : Nat → Nat → System) :
    logger.write level input function file lineno systems =
      (run? stepAt logger.writers
        (logger.issued (.write level input function file lineno systems))).map
          fun writers => { logger with writers } := by
  have hdropped : logger.wantsToProcess level = false →
      run? stepAt logger.writers
        (logger.issued (.write level input function file lineno systems)) = some logger.writers := by
    intro hunwanted
    refine run_stepAt_of_unwanted fun call hcall => ?_
    simp only [issued] at hcall
    rw [wantsToProcess_eq] at hunwanted
    cases hformatter : logger.m_formatter with
    | none =>
      rw [hformatter] at hcall
      cases hcall
    | some formatter =>
      rw [hformatter] at hcall hunwanted
      obtain ⟨⟨writer, n⟩, hmem, rfl⟩ := List.mem_map.mp hcall
      have hwriter : writer ∈ logger.m_writers := List.fst_mem_of_mem_zipIdx hmem
      have hall := List.any_eq_false.mp (by simpa using hunwanted) writer hwriter
      rw [Writer.step, if_neg hall]
  unfold write
  cases hwanted : logger.wantsToProcess level with
  | false =>
    rw [hdropped hwanted]
    rfl
  | true =>
    cases hformatter : logger.m_formatter with
    | none =>
      rw [wantsToProcess_eq, hformatter] at hwanted
      cases hwanted
    | some formatter =>
      simp only [issued, hformatter]
      rfl

theorem step_issued {event : Event κ} {after : TheLogger κ} (h : after ∈ logger.step event) :
    after.writers ∈ run? stepAt logger.writers (logger.issued event) := by
  have hone : ∀ (writer : κ) (call : Writer.Call) (changed : Writer),
      (logger.writers writer).step call = some changed →
      Function.update logger.writers writer changed ∈
        run? stepAt logger.writers [(writer, call)] := by
    intro writer call changed hstep
    simp [run?, stepAt, hstep]
  cases event with
  | initializeLogger writer formatter system =>
    cases h
    exact hone writer _ _ rfl
  | add writer system =>
    rw [step] at h
    rw [issued]
    split at h
    next hnone =>
      cases h
      rw [if_pos hnone]
      rfl
    next hsome =>
      rw [if_neg hsome]
      dsimp only at h
      split at h <;> cases h <;> exact hone writer _ _ rfl
  | setLevel level =>
    cases h
    rfl
  | write level input function file lineno systems =>
    rw [step, write_eq] at h
    obtain ⟨writers, hwriters, rfl⟩ := Option.map_eq_some_iff.mp h
    exact hwriters
  | setLowestLeveL writer lowestLevel =>
    cases h
    exact hone writer _ _ rfl

/-- A writer goes through its own calls, whatever becomes of the others. -/
theorem run_callsTo {events : List (Event κ)} {after : TheLogger κ}
    (hrun : after ∈ run? step logger events) (writer : κ) :
    after.writers writer ∈
      run? Writer.step (logger.writers writer) (callsTo writer logger events) := by
  induction events generalizing logger with
  | nil =>
    cases hrun
    rfl
  | cons event events ih =>
    obtain ⟨next, hnext, hrest⟩ := Option.bind_eq_some_iff.mp hrun
    have hown := (stepAt_projects writer).run? (step_issued hnext)
    rw [callsTo, hnext, run?_append]
    exact Option.bind_eq_some_iff.mpr ⟨_, hown, ih hrest⟩

omit [DecidableEq κ] in
def Sound (logger : TheLogger κ) : Prop := ∀ writer, (logger.writers writer).Sound

theorem run_stepAt_sound (h : ∀ writer, (writers writer).Sound) (calls : List (κ × Writer.Call)) :
    ∃ after, run? stepAt writers calls = some after ∧ ∀ writer, (after writer).Sound := by
  have hstep : ∀ (writers : κ → Writer) call, (∀ writer, (writers writer).Sound) →
      ∃ after, stepAt writers call = some after ∧ ∀ writer, (after writer).Sound := by
    intro writers call hsound
    obtain ⟨changed, hchanged, hsound'⟩ := (hsound call.1).step call.2
    refine ⟨Function.update writers call.1 changed, by rw [stepAt, hchanged]; rfl, fun writer => ?_⟩
    rw [Function.update_apply]
    split
    · exact hsound'
    · exact hsound writer
  exact run?_total hstep h calls

theorem Sound.step (h : logger.Sound) (event : Event κ) :
    ∃ after, logger.step event = some after ∧ after.Sound := by
  have hsome : ∃ after, logger.step event = some after := by
    cases event with
    | initializeLogger | setLevel | setLowestLeveL => exact ⟨_, rfl⟩
    | add writer system =>
      rw [TheLogger.step]
      split
      · exact ⟨_, rfl⟩
      · dsimp only
        split <;> exact ⟨_, rfl⟩
    | write level input function file lineno systems =>
      obtain ⟨writers, hwriters, -⟩ := run_stepAt_sound h
        (logger.issued (.write level input function file lineno systems))
      rw [TheLogger.step, write_eq, hwriters]
      exact ⟨_, rfl⟩
  obtain ⟨after, hafter⟩ := hsome
  obtain ⟨writers, hwriters, hsound⟩ := run_stepAt_sound h (logger.issued event)
  have heq : writers = after.writers := by
    have hissued := step_issued hafter
    rw [hwriters] at hissued
    exact Option.some.inj hissued
  refine ⟨after, hafter, fun writer => ?_⟩
  rw [← heq]
  exact hsound writer

/-- Every run is defined, and in it each writer goes through its own calls: nobody is in the way of
another one, and a line of error is wanted by whoever gets it offered. -/
theorem run_own (start : TheLogger κ) (hfresh : ∀ writer, (start.writers writer).Fresh)
    (events : List (Event κ)) : ∃ after, run? step start events = some after ∧ ∀ writer,
      run? Writer.step (start.writers writer) (callsTo writer start events) =
        some (after.writers writer) ∧
      Meets? Writer.step (fun writer call => call.IsError → writer.Wants call)
        (start.writers writer) (callsTo writer start events) := by
  have hsound : start.Sound := fun writer => (hfresh writer).sound
  obtain ⟨after, hafter, -⟩ :=
    run?_total (fun _ event h => Sound.step h event) hsound events
  have hkeeps : ∀ (writer : Writer) call after, writer.Sound → after ∈ writer.step call →
      after.Sound := by
    intro writer call after hwriter hstep
    obtain ⟨next, hnext, hnext'⟩ := hwriter.step call
    exact Option.some.inj (hnext.symm.trans hstep) ▸ hnext'
  refine ⟨after, hafter, fun writer => ⟨run_callsTo hafter writer, ?_⟩⟩
  exact meets?_of_invariant hkeeps (fun _ _ h => h.wants) (hsound writer) _

theorem run_own_tty : ∃ after,
    run? step (⟨.Warning, none, [], fun _ => .tty []⟩ : TheLogger Unit)
      [.initializeLogger () (fun _ input _ _ _ => input) ⟨true, true, true, []⟩,
        .write .Error (text "lost") [] [] 1 fun _ _ => ⟨true, true, true, []⟩] = some after ∧
    ∀ writer, run? Writer.step (.tty []) (callsTo writer
      (⟨.Warning, none, [], fun _ => .tty []⟩ : TheLogger Unit)
      [.initializeLogger () (fun _ input _ _ _ => input) ⟨true, true, true, []⟩,
        .write .Error (text "lost") [] [] 1 fun _ _ => ⟨true, true, true, []⟩]) =
      some (after.writers writer) := by
  obtain ⟨after, hafter, hown⟩ := run_own (⟨.Warning, none, [], fun _ => .tty []⟩ : TheLogger Unit)
    (fun _ => trivial)
    [.initializeLogger () (fun _ input _ _ _ => input) ⟨true, true, true, []⟩,
      .write .Error (text "lost") [] [] 1 fun _ _ => ⟨true, true, true, []⟩]
  exact ⟨after, hafter, fun writer => (hown writer).1⟩

/-- Behind the facade, too, the file of a `BacktraceWriter` gets the last lines that were not above the
lowest level in front of each line of error, and no others, whatever the level of the logger. -/
theorem backtrace_of_run {start after : TheLogger κ} {writer : κ} {backtrackingLength : Int}
    {circular : CircularTraceWriter} {events : List (Event κ)}
    (hwriter : start.writers writer = .backtrace (.instantiate backtrackingLength) circular)
    (hlength : 1 ≤ backtrackingLength) (hrun : run? step start events = some after) :
    ∃ lines, after.writers writer = .backtrace lines (trace CircularTraceWriter.step circular
      (trace (Writer.reference (min backtrackingLength 4096).toNat) ⟨.Debug, []⟩
        (callsTo writer start events)).1.flatten).2 := by
  obtain ⟨n, hn, hholds⟩ := Writer.holds_instantiate hlength
  obtain ⟨lines, hlines⟩ := Writer.backtrace_run hholds (by decide) circular
    (callsTo writer start events)
  have hown := run_callsTo hrun writer
  rw [hwriter, hlines] at hown
  rw [hn]
  exact ⟨lines, (Option.some.inj hown).symm⟩

def sample : TheLogger Unit :=
  ⟨.Warning, none, [], fun _ =>
    .backtrace (.instantiate 2) (.instantiate (text "trace.log") 256 [] [])⟩

def sampleEvents : List (Event Unit) :=
  let formatter : Formatter := fun _ input _ _ _ => input
  let system : System := ⟨true, true, true, []⟩
  [.initializeLogger () formatter system, .write .Debug (text "a") [] [] 1 fun _ _ => system,
    .write .Debug (text "b") [] [] 2 fun _ _ => system,
    .write .Debug (text "c") [] [] 3 fun _ _ => system,
    .write .Error (text "e") [] [] 4 fun _ _ => system]

theorem backtrace_of_run_sample : ∃ after lines circular,
    run? step sample sampleEvents = some after ∧
      after.writers () = .backtrace lines circular ∧ circular.file = text "b\nc\ne\n" := by
  have hrun : ∃ after, run? step sample sampleEvents = some after := ⟨_, rfl⟩
  obtain ⟨after, hafter⟩ := hrun
  obtain ⟨lines, hlines⟩ := backtrace_of_run rfl (by decide) hafter
  exact ⟨after, lines, _, hafter, hlines, by decide +kernel⟩

end TheLogger

end Coffee.Logger
