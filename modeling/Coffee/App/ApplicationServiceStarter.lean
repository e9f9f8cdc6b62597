import Coffee.Basis.Semaphore

/-! # The application that waits to be stopped

`run` waits on a condition under a mutex that `do_stop` does not take, so a stop can fall between the
test of `stopNow` and the wait behind it.
-/

namespace Coffee.App

open Coffee.Basis Coffee.Library Monitor Runs

/-- Two condition variables, one for `waitUntilRunning` and one for the stop. -/
structure ApplicationServiceStarter (ι : Type*) where
  semaphoreForRun : Monitor ι Int
  conditionForStop : Monitor ι Bool

namespace ApplicationServiceStarter

/-- The value is `stopNow`. `do_stop` sets it and notifies, with its mutex free, whether the stop of
the services throws or not. -/
def protocol : Protocol Bool where
  ready stopNow := stopNow
  update _ := true
  guarded := false

inductive Move (ι : Type*)
  | semaphoreForRun (op : Monitor.Move ι)
  | conditionForStop (op : Monitor.Move ι)

variable {ι : Type*}

def fresh : ApplicationServiceStarter ι := ⟨Monitor.fresh 0, Monitor.fresh false⟩

def run (t : ι) : Move ι := .semaphoreForRun (Semaphore.signal t)

/-- `run` again, behind its signal. -/
def waitForStop (t : ι) : Move ι := .conditionForStop (.wait t)

def waitUntilRunning (t : ι) : Move ι := .semaphoreForRun (Semaphore.wait t)

def do_stop (t : ι) : Move ι := .conditionForStop (.change t)

/-- A thread is in one call at a time, and `run` waits for the stop once it has signalled. -/
def Free (s : ApplicationServiceStarter ι) : Move ι → Prop
  | .semaphoreForRun (.wait t) | .semaphoreForRun (.change t) =>
    (s.conditionForStop.place t).Resting
  | .conditionForStop (.wait t) =>
    s.semaphoreForRun.place t = .left ∧ s.conditionForStop.place t = .outside
  | .conditionForStop (.change t) => (s.semaphoreForRun.place t).Resting
  | _ => True

instance (s : ApplicationServiceStarter ι) : DecidablePred s.Free := fun op => by
  unfold Free
  split <;> infer_instance

variable [DecidableEq ι]

def step (s : ApplicationServiceStarter ι) (op : Move ι) : Option (ApplicationServiceStarter ι) :=
  if s.Free op then
    match op with
    | .semaphoreForRun op =>
      (Semaphore.step s.semaphoreForRun op).map fun m => { s with semaphoreForRun := m }
    | .conditionForStop op =>
      (protocol.step s.conditionForStop op).map fun m => { s with conditionForStop := m }
  else none

/-- Nobody notifies, and the wait of the thread ends for no other reason. -/
def Quiet (t : ι) (s : ApplicationServiceStarter ι) : Move ι → Prop
  | .semaphoreForRun _ => True
  | .conditionForStop op => Protocol.Quiet t s.conditionForStop op

def Move.atStop : Move ι → Option (Monitor.Move ι)
  | .semaphoreForRun _ => none
  | .conditionForStop op => some op

theorem protocol_lasting : protocol.Lasting fun _ => True := ⟨fun _ _ => trivial, fun _ _ => rfl⟩

theorem step_projects :
    Projects (step (ι := ι)) protocol.step conditionForStop Move.atStop := by
  intro s op s' hs'
  obtain ⟨-, hs'⟩ := Option.ite_none_right_eq_some.mp hs'
  cases op with
  | semaphoreForRun op =>
    obtain ⟨m, -, rfl⟩ := Option.map_eq_some_iff.mp hs'
    rfl
  | conditionForStop op =>
    obtain ⟨m, hm, rfl⟩ := Option.map_eq_some_iff.mp hs'
    exact hm

variable {s s' last : ApplicationServiceStarter ι} {ops post : List (Move ι)} {t c : ι}

theorem consistent (hs : s ∈ run? step fresh ops) :
    protocol.Consistent (fun _ => True) s.conditionForStop :=
  Protocol.consistent_run protocol_lasting (Protocol.consistent_fresh protocol trivial)
    (step_projects.run? hs)

theorem quiet_projects (hlast : last ∈ run? step s post) (hquiet : Meets? step (Quiet t) s post) :
    Meets? protocol.step (Protocol.Quiet t) s.conditionForStop (post.filterMap Move.atStop) := by
  refine step_projects.meets? hlast (meets?_iff.mpr fun pre op rest s₁ hops hs₁ op' hop' => ?_)
  have hop := meets?_iff.mp hquiet pre op rest s₁ hops hs₁
  cases op with
  | semaphoreForRun op => cases hop'
  | conditionForStop op =>
    cases hop'
    exact hop

/-- In any run, however the threads interleave and whether or not they wait until the application is
running: behind the last notification of a stop, where nothing can move, `run` is left asleep for ever
just when that notification came between its test of `stopNow` and its wait, and else has returned. -/
theorem run_asleep_iff_notified_between (hs : s ∈ run? step fresh ops)
    (hc : s.conditionForStop.place c = .changed)
    (hnotify : s' ∈ step s (.conditionForStop (.advance c))) (hlast : last ∈ run? step s' post)
    (hquiet : Meets? step (Quiet t) s' post) (hstill : protocol.Still last.conditionForStop) :
    (last.conditionForStop.place t = .asleep ↔ s.conditionForStop.place t = .refused) ∧
    ((last.conditionForStop.place t).Waits →
      (last.conditionForStop.place t = .through ↔ s.conditionForStop.place t ≠ .refused)) := by
  have hconsistent := consistent hs
  have hmove : s'.conditionForStop ∈ protocol.advance s.conditionForStop c :=
    step_projects s _ s' hnotify
  have hiff := Protocol.stranded_iff_refused protocol_lasting hconsistent hc hmove
    (step_projects.run? hlast) (quiet_projects hlast hquiet)
  have hconsistent' : protocol.Consistent (fun _ => True) last.conditionForStop := by
    have hstep : s'.conditionForStop ∈ protocol.step s.conditionForStop (.advance c) := hmove
    exact Protocol.consistent_run protocol_lasting
      (Protocol.consistent_step protocol_lasting hconsistent hstep) (step_projects.run? hlast)
  have hrefused : last.conditionForStop.place t ≠ .refused := by
    intro ht
    rcases hstill.resting hconsistent' t with h | h <;> rw [ht] at h <;> cases h
  have hasleep : last.conditionForStop.place t = .asleep ↔ s.conditionForStop.place t = .refused := by
    rw [← hiff, Protocol.Stranded, or_iff_right hrefused]
  refine ⟨hasleep, fun hwaits => ?_⟩
  rw [Ne, ← hasleep]
  rcases hstill.through hconsistent' hwaits with h | h <;> simp [h]

/-- The second thread waits until the application is running and stops it, while `run` in the first has
tested `stopNow` and is about to wait. -/
def stopBetween : List (Move Bool) :=
  [waitUntilRunning true, run false, .semaphoreForRun (.advance false),
    .semaphoreForRun (.advance false), .semaphoreForRun (.advance false),
    .semaphoreForRun (.advance false), .semaphoreForRun (.advance true),
    .semaphoreForRun (.advance true), .semaphoreForRun (.advance true),
    waitForStop false, .conditionForStop (.advance false), .conditionForStop (.advance false),
    do_stop true, .conditionForStop (.advance true)]

theorem stopBetween_isSome : (run? step fresh stopBetween).isSome := by decide

def stopping : ApplicationServiceStarter Bool :=
  (run? step fresh stopBetween).get stopBetween_isSome

theorem stopping_step_isSome : (step stopping (.conditionForStop (.advance true))).isSome := by decide

def stopped : ApplicationServiceStarter Bool :=
  (step stopping (.conditionForStop (.advance true))).get stopping_step_isSome

theorem stopped_run_isSome :
    (run? step stopped [.conditionForStop (.advance false)]).isSome := by decide

def ended : ApplicationServiceStarter Bool :=
  (run? step stopped [.conditionForStop (.advance false)]).get stopped_run_isSome

theorem ended_asleep : ended.conditionForStop.value = true ∧ protocol.Still ended.conditionForStop ∧
    ended.conditionForStop.place false = .asleep := by
  have hstill : protocol.Still ended.conditionForStop := by
    intro t
    cases t <;> rfl
  have hquiet : Meets? step (Quiet false) stopped [.conditionForStop (.advance false)] :=
    ⟨show stopped.conditionForStop.place false ≠ .changed by decide, fun _ _ => trivial⟩
  refine ⟨by decide, hstill, ?_⟩
  exact (run_asleep_iff_notified_between (Option.get_mem stopBetween_isSome) (by decide)
    (Option.get_mem stopping_step_isSome) (Option.get_mem stopped_run_isSome) hquiet
    hstill).1.mpr (by decide)

end ApplicationServiceStarter

end Coffee.App
