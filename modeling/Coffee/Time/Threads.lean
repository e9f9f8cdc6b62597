import Coffee.App.Application
import Coffee.Library.Runs

/-! # The threads of the time service

`do_initialize` starts a producer of ticks and a consumer, `do_stop` waits for both to end. A move is
one step of one thread, so a run is any interleaving of them over any number of starts and stops.
Other threads take the mutex to activate and cancel events.
-/

namespace Coffee.Time

open Coffee.App (Status)
open Coffee.Library Runs

inductive Producer
  | testing
  | sleeping
  | locking
  | pushing
  | notifying
  | unlocking
  | ended
  deriving DecidableEq, Repr

/-- `lost` is behind a `pop_front` of an empty list, of which nothing is defined. -/
inductive Consumer
  | locking
  | testing
  | waiting
  | asleep
  | woken
  | draining
  | popping
  | lost
  | leaving
  | ended
  deriving DecidableEq, Repr

/-- The thread that starts and stops the service. -/
inductive Starter
  | stopped
  | locking
  | creatingProducer
  | creatingConsumer
  | unlocking
  | announcing
  | running
  | halting
  | clearing
  | notifying
  | joiningProducer
  | joiningConsumer
  deriving DecidableEq, Repr

inductive Holder (ι : Type*)
  | starter
  | producer
  | consumer
  | client (c : ι)
  deriving DecidableEq, Repr

/-- `tickCounter` is the local variable of `produce`. No field of the service is `processed`: the
ticks that the consumer has taken since it was created. -/
structure Threads (ι : Type*) where
  status : Status
  mutex : Option (Holder ι)
  ticks : List Nat
  tickCounter : Nat
  processed : List Nat
  producer : Producer
  consumer : Consumer
  starter : Starter

inductive Threads.Move (ι : Type*)
  | start
  | stop
  | starter
  | producer
  | consumer
  | wake
  | lock (c : ι)
  | unlock (c : ι)
  deriving DecidableEq, Repr

/-- What `notify_one` and `notify_all` do to the one thread that waits. -/
def Consumer.notified : Consumer → Consumer
  | .asleep => .woken
  | consumer => consumer

@[grind =] theorem Consumer.notified_eq (consumer : Consumer) :
    consumer.notified = if consumer = .asleep then .woken else consumer := by
  cases consumer <;> rfl

/-- What the service's status is in front of a step of the thread that starts and stops it. -/
def Starter.status : Starter → Status
  | .stopped | .clearing | .notifying | .joiningProducer | .joiningConsumer => .Stopped
  | .locking | .creatingProducer | .creatingConsumer | .unlocking | .announcing => .Starting
  | .running | .halting => .Running

/-- The clearing of the ticks in `do_stop` lies behind. -/
def Starter.Cleared : Starter → Prop
  | .notifying | .joiningProducer | .joiningConsumer | .stopped | .locking | .creatingProducer => True
  | _ => False

namespace Threads

variable {ι : Type*}

def fresh : Threads ι := ⟨.Stopped, none, [], 0, [], .ended, .ended, .stopped⟩

def produce (s : Threads ι) : Option (Threads ι) :=
  match s.producer with
  | .testing =>
    some { s with producer := if s.status = .Running then .sleeping else .ended }
  | .sleeping => some { s with producer := .locking }
  | .locking =>
    if s.mutex.isNone then some { s with producer := .pushing, mutex := some .producer } else none
  | .pushing =>
    some { s with
      producer := .notifying
      ticks := s.ticks ++ [s.tickCounter + 1]
      tickCounter := s.tickCounter + 1 }
  | .notifying => some { s with producer := .unlocking, consumer := s.consumer.notified }
  | .unlocking => some { s with producer := .testing, mutex := none }
  | .ended => none

/-- To wait is to release the mutex and fall asleep at once. The inner loop does not test the status. -/
def consume (s : Threads ι) : Option (Threads ι) :=
  match s.consumer with
  | .locking =>
    if s.mutex.isNone then some { s with consumer := .testing, mutex := some .consumer } else none
  | .testing =>
    some { s with consumer := if s.status = .Running then .waiting else .leaving }
  | .waiting => some { s with consumer := .asleep, mutex := none }
  | .asleep => none
  | .woken =>
    if s.mutex.isNone then some { s with consumer := .draining, mutex := some .consumer } else none
  | .draining => some { s with consumer := if s.ticks.isEmpty then .testing else .popping }
  -- `do_stop` may have cleared the ticks since the test
  | .popping =>
    match s.ticks with
    | [] => some { s with consumer := .lost }
    | tick :: ticks =>
      some { s with consumer := .draining, ticks := ticks, processed := s.processed ++ [tick] }
  | .lost => none
  | .leaving => some { s with consumer := .ended, mutex := none }
  | .ended => none

/-- The steps of `Service::initialize` and of `Runnable::stop`. `do_stop` takes no mutex. -/
def advance (s : Threads ι) : Option (Threads ι) :=
  match s.starter with
  | .locking =>
    if s.mutex.isNone then some { s with starter := .creatingProducer, mutex := some .starter }
    else none
  | .creatingProducer =>
    some { s with
      starter := .creatingConsumer, producer := .testing, tickCounter := 0, processed := [] }
  | .creatingConsumer => some { s with starter := .unlocking, consumer := .locking }
  | .unlocking => some { s with starter := .announcing, mutex := none }
  | .announcing => some { s with starter := .running, status := .Running }
  | .halting => some { s with starter := .clearing, status := .Stopped }
  | .clearing => some { s with starter := .notifying, ticks := [] }
  | .notifying => some { s with starter := .joiningProducer, consumer := s.consumer.notified }
  | .joiningProducer =>
    if s.producer = .ended then some { s with starter := .joiningConsumer } else none
  | .joiningConsumer => if s.consumer = .ended then some { s with starter := .stopped } else none
  | .stopped | .running => none

variable [DecidableEq ι]

def step (s : Threads ι) : Move ι → Option (Threads ι)
  | .start =>
    if s.starter = .stopped then some { s with starter := .locking, status := .Starting } else none
  | .stop => if s.starter = .running then some { s with starter := .halting } else none
  | .starter => s.advance
  | .producer => s.produce
  | .consumer => s.consume
  | .wake => if s.consumer = .asleep then some { s with consumer := .woken } else none
  | .lock c => if s.mutex.isNone then some { s with mutex := some (.client c) } else none
  | .unlock c => if s.mutex = some (.client c) then some { s with mutex := none } else none

/-- Everything that a step can do. -/
inductive Steps (s : Threads ι) : Move ι → Threads ι → Prop
  | start (h : s.starter = .stopped) :
    Steps s .start { s with starter := .locking, status := .Starting }
  | stop (h : s.starter = .running) : Steps s .stop { s with starter := .halting }
  | enter (h : s.starter = .locking) (free : s.mutex = none) :
    Steps s .starter { s with starter := .creatingProducer, mutex := some .starter }
  | createProducer (h : s.starter = .creatingProducer) :
    Steps s .starter { s with
      starter := .creatingConsumer, producer := .testing, tickCounter := 0, processed := [] }
  | createConsumer (h : s.starter = .creatingConsumer) :
    Steps s .starter { s with starter := .unlocking, consumer := .locking }
  | leave (h : s.starter = .unlocking) :
    Steps s .starter { s with starter := .announcing, mutex := none }
  | announce (h : s.starter = .announcing) :
    Steps s .starter { s with starter := .running, status := .Running }
  | halt (h : s.starter = .halting) :
    Steps s .starter { s with starter := .clearing, status := .Stopped }
  | clear (h : s.starter = .clearing) : Steps s .starter { s with starter := .notifying, ticks := [] }
  | notifyAll (h : s.starter = .notifying) :
    Steps s .starter { s with starter := .joiningProducer, consumer := s.consumer.notified }
  | joinProducer (h : s.starter = .joiningProducer) (ended : s.producer = .ended) :
    Steps s .starter { s with starter := .joiningConsumer }
  | joinConsumer (h : s.starter = .joiningConsumer) (ended : s.consumer = .ended) :
    Steps s .starter { s with starter := .stopped }
  | goOn (h : s.producer = .testing) (running : s.status = .Running) :
    Steps s .producer { s with producer := .sleeping }
  | giveUp (h : s.producer = .testing) (running : s.status ≠ .Running) :
    Steps s .producer { s with producer := .ended }
  | usleep (h : s.producer = .sleeping) : Steps s .producer { s with producer := .locking }
  | lockProducer (h : s.producer = .locking) (free : s.mutex = none) :
    Steps s .producer { s with producer := .pushing, mutex := some .producer }
  | push (h : s.producer = .pushing) :
    Steps s .producer { s with
      producer := .notifying
      ticks := s.ticks ++ [s.tickCounter + 1]
      tickCounter := s.tickCounter + 1 }
  | notifyOne (h : s.producer = .notifying) :
    Steps s .producer { s with producer := .unlocking, consumer := s.consumer.notified }
  | unlockProducer (h : s.producer = .unlocking) :
    Steps s .producer { s with producer := .testing, mutex := none }
  | lockConsumer (h : s.consumer = .locking) (free : s.mutex = none) :
    Steps s .consumer { s with consumer := .testing, mutex := some .consumer }
  | accept (h : s.consumer = .testing) (running : s.status = .Running) :
    Steps s .consumer { s with consumer := .waiting }
  | refuse (h : s.consumer = .testing) (running : s.status ≠ .Running) :
    Steps s .consumer { s with consumer := .leaving }
  | sleep (h : s.consumer = .waiting) :
    Steps s .consumer { s with consumer := .asleep, mutex := none }
  | relock (h : s.consumer = .woken) (free : s.mutex = none) :
    Steps s .consumer { s with consumer := .draining, mutex := some .consumer }
  | drain (h : s.consumer = .draining) (hticks : s.ticks ≠ []) :
    Steps s .consumer { s with consumer := .popping }
  | drained (h : s.consumer = .draining) (hticks : s.ticks = []) :
    Steps s .consumer { s with consumer := .testing }
  | pop (h : s.consumer = .popping) {tick : Nat} {ticks : List Nat}
    (hticks : s.ticks = tick :: ticks) :
    Steps s .consumer { s with
      consumer := .draining, ticks := ticks, processed := s.processed ++ [tick] }
  | lose (h : s.consumer = .popping) (hticks : s.ticks = []) :
    Steps s .consumer { s with consumer := .lost }
  | unlockConsumer (h : s.consumer = .leaving) :
    Steps s .consumer { s with consumer := .ended, mutex := none }
  | wake (h : s.consumer = .asleep) : Steps s .wake { s with consumer := .woken }
  | lock (c : ι) (free : s.mutex = none) : Steps s (.lock c) { s with mutex := some (.client c) }
  | unlock (c : ι) (held : s.mutex = some (.client c)) : Steps s (.unlock c) { s with mutex := none }

variable {s s' : Threads ι} {op : Move ι} {ops : List (Move ι)}

omit [DecidableEq ι] in
theorem steps_of_produce (h : s' ∈ s.produce) : Steps s .producer s' := by
  cases hproducer : s.producer <;> simp only [produce, hproducer] at h
  case testing =>
    obtain rfl := Option.some.inj h
    split
    case isTrue hrunning => exact .goOn hproducer hrunning
    case isFalse hrunning => exact .giveUp hproducer hrunning
  case locking =>
    obtain ⟨free, h⟩ := Option.ite_none_right_eq_some.mp h
    obtain rfl := Option.some.inj h
    exact .lockProducer hproducer (Option.isNone_iff_eq_none.mp free)
  all_goals cases h
  case sleeping => exact .usleep hproducer
  case pushing => exact .push hproducer
  case notifying => exact .notifyOne hproducer
  case unlocking => exact .unlockProducer hproducer

omit [DecidableEq ι] in
theorem steps_of_consume (h : s' ∈ s.consume) : Steps s .consumer s' := by
  cases hconsumer : s.consumer <;> simp only [consume, hconsumer] at h
  case locking =>
    obtain ⟨free, h⟩ := Option.ite_none_right_eq_some.mp h
    obtain rfl := Option.some.inj h
    exact .lockConsumer hconsumer (Option.isNone_iff_eq_none.mp free)
  case testing =>
    obtain rfl := Option.some.inj h
    split
    case isTrue hrunning => exact .accept hconsumer hrunning
    case isFalse hrunning => exact .refuse hconsumer hrunning
  case woken =>
    obtain ⟨free, h⟩ := Option.ite_none_right_eq_some.mp h
    obtain rfl := Option.some.inj h
    exact .relock hconsumer (Option.isNone_iff_eq_none.mp free)
  case draining =>
    obtain rfl := Option.some.inj h
    split
    case isTrue hticks => exact .drained hconsumer (List.isEmpty_iff.mp hticks)
    case isFalse hticks => exact .drain hconsumer fun hnil => hticks (List.isEmpty_iff.mpr hnil)
  case popping =>
    cases hticks : s.ticks <;> simp only [hticks] at h <;> obtain rfl := Option.some.inj h
    · rw [← hticks]
      exact .lose hconsumer hticks
    · exact .pop hconsumer hticks
  all_goals cases h
  case waiting => exact .sleep hconsumer
  case leaving => exact .unlockConsumer hconsumer

omit [DecidableEq ι] in
theorem steps_of_advance (h : s' ∈ s.advance) : Steps s .starter s' := by
  cases hstarter : s.starter <;> simp only [advance, hstarter] at h
  case locking =>
    obtain ⟨free, h⟩ := Option.ite_none_right_eq_some.mp h
    obtain rfl := Option.some.inj h
    exact .enter hstarter (Option.isNone_iff_eq_none.mp free)
  case joiningProducer =>
    obtain ⟨hended, h⟩ := Option.ite_none_right_eq_some.mp h
    obtain rfl := Option.some.inj h
    exact .joinProducer hstarter hended
  case joiningConsumer =>
    obtain ⟨hended, h⟩ := Option.ite_none_right_eq_some.mp h
    obtain rfl := Option.some.inj h
    exact .joinConsumer hstarter hended
  all_goals cases h
  case creatingProducer => exact .createProducer hstarter
  case creatingConsumer => exact .createConsumer hstarter
  case unlocking => exact .leave hstarter
  case announcing => exact .announce hstarter
  case halting => exact .halt hstarter
  case clearing => exact .clear hstarter
  case notifying => exact .notifyAll hstarter

theorem steps (h : s' ∈ step s op) : Steps s op s' := by
  cases op with
  | starter => exact steps_of_advance h
  | producer => exact steps_of_produce h
  | consumer => exact steps_of_consume h
  | start =>
    obtain ⟨hstarter, h⟩ := Option.ite_none_right_eq_some.mp h
    obtain rfl := Option.some.inj h
    exact .start hstarter
  | stop =>
    obtain ⟨hstarter, h⟩ := Option.ite_none_right_eq_some.mp h
    obtain rfl := Option.some.inj h
    exact .stop hstarter
  | wake =>
    obtain ⟨hconsumer, h⟩ := Option.ite_none_right_eq_some.mp h
    obtain rfl := Option.some.inj h
    exact .wake hconsumer
  | lock c =>
    obtain ⟨free, h⟩ := Option.ite_none_right_eq_some.mp h
    obtain rfl := Option.some.inj h
    exact .lock c (Option.isNone_iff_eq_none.mp free)
  | unlock c =>
    obtain ⟨held, h⟩ := Option.ite_none_right_eq_some.mp h
    obtain rfl := Option.some.inj h
    exact .unlock c held

/-- Who holds the mutex is where it holds it. -/
structure Owned (s : Threads ι) : Prop where
  starter : s.mutex = some .starter ↔
    s.starter = .creatingProducer ∨ s.starter = .creatingConsumer ∨ s.starter = .unlocking
  producer : s.mutex = some .producer ↔
    s.producer = .pushing ∨ s.producer = .notifying ∨ s.producer = .unlocking
  consumer : s.mutex = some .consumer ↔ s.consumer = .testing ∨ s.consumer = .waiting ∨
    s.consumer = .draining ∨ s.consumer = .popping ∨ s.consumer = .lost ∨ s.consumer = .leaving

/-- The two threads last from a start to its stop, and only a stop leaves the consumer with a tick that
is gone. -/
structure Consistent (s : Threads ι) : Prop extends Owned s where
  status : s.status = s.starter.status
  absent : s.starter = .stopped ∨ s.starter = .locking ∨ s.starter = .creatingProducer →
    s.producer = .ended ∧ s.consumer = .ended
  producing : s.starter = .creatingConsumer ∨ s.starter = .unlocking ∨ s.starter = .announcing →
    s.producer = .testing ∨ s.producer = .ended
  alone : s.starter = .creatingConsumer → s.consumer = .ended
  consuming : s.starter = .unlocking ∨ s.starter = .announcing → s.consumer = .locking ∨
    s.consumer = .testing ∨ s.consumer = .leaving ∨ s.consumer = .ended
  joined : s.starter = .joiningConsumer → s.producer = .ended
  popping : s.consumer = .popping → s.ticks = [] → s.starter.Cleared
  lost : s.consumer = .lost → s.starter.Cleared

omit [DecidableEq ι] in
theorem consistent_fresh : Consistent (fresh (ι := ι)) := by
  refine ⟨?_, ?_, ?_, ?_, ?_, ?_, ?_, ?_, ?_⟩
  · constructor <;> simp [fresh]
  all_goals simp [fresh, Starter.status]

omit [DecidableEq ι] in
theorem Owned.step (hs : s.Owned) (h : s.Steps op s') : s'.Owned := by
  obtain ⟨h1, h2, h3⟩ := hs
  cases h <;> constructor <;> grind

omit [DecidableEq ι] in
/-- The ticks are gone behind the test of the consumer only where `do_stop` has cleared them. -/
theorem Consistent.step_cleared (hs : s.Consistent) (h : s.Steps op s') :
    (s'.consumer = .popping → s'.ticks = [] → s'.starter.Cleared) ∧
      (s'.consumer = .lost → s'.starter.Cleared) := by
  have habsent := hs.absent
  have halone := hs.alone
  have hpopping := hs.popping
  have hlost := hs.lost
  cases h <;> grind [Starter.Cleared, List.append_eq_nil_iff]

omit [DecidableEq ι] in
theorem Consistent.step (hs : s.Consistent) (h : s.Steps op s') : s'.Consistent := by
  have howned := hs.toOwned.step h
  obtain ⟨hpopping, hlost⟩ := hs.step_cleared h
  obtain ⟨⟨h1, h2, h3⟩, h4, h5, h6, h7, h8, h9, -, -⟩ := hs
  refine ⟨howned, ?_, ?_, ?_, ?_, ?_, ?_, hpopping, hlost⟩ <;> clear howned hpopping hlost <;>
    cases h <;> grind [Starter.status]

theorem consistent_run (hs : s ∈ run? step fresh ops) : s.Consistent :=
  run?_invariant (fun _ _ _ hs h => hs.step (steps h)) consistent_fresh hs

/-- What became of the ticks of a period and of those it began with: kept and processed or pending,
cleared by `do_stop`, or pushed behind that. -/
structure Accounted (s : Threads ι) (stale kept cleared late : List Nat) : Prop where
  stale_le : stale.length ≤ 1
  late_le : late.length ≤ 1
  pushed : stale ++ List.range' 1 s.tickCounter = kept ++ cleared ++ late
  taken : s.processed ++ s.ticks = kept ++ late
  uncleared : ¬ s.starter.Cleared → cleared = [] ∧ late = []
  pending : s.starter.Cleared → s.ticks.length ≤ late.length
  last : s.starter.Cleared →
    s.producer = .sleeping ∨ s.producer = .locking ∨ s.producer = .pushing → late = []

omit [DecidableEq ι] in
theorem Consistent.not_cleared (hs : s.Consistent) (h : s.status = .Running) :
    ¬ s.starter.Cleared := by
  rw [hs.status] at h
  cases hstarter : s.starter <;> simp_all [Starter.status, Starter.Cleared]

variable {stale kept cleared late : List Nat}

omit [DecidableEq ι] in
theorem Accounted.push (hs : s.Accounted stale kept cleared late) (hproducer : s.producer = .pushing) :
    ∃ kept late, ({ s with
      producer := .notifying
      ticks := s.ticks ++ [s.tickCounter + 1]
      tickCounter := s.tickCounter + 1 } : Threads ι).Accounted stale kept cleared late := by
  have hrange : List.range' 1 (s.tickCounter + 1) =
      List.range' 1 s.tickCounter ++ [s.tickCounter + 1] := by
    rw [List.range'_1_concat, Nat.add_comm]
  by_cases hcleared : s.starter.Cleared
  · -- The producer has tested the status in front of the stop, so this tick is the last one.
    have hlate : late = [] := hs.last hcleared (.inr (.inr hproducer))
    have hticks := hs.pending hcleared
    have hpushed := hs.pushed
    have htaken := hs.taken
    subst hlate
    refine ⟨kept, [s.tickCounter + 1], hs.stale_le, Nat.le_refl 1, ?_, ?_, ?_, ?_, ?_⟩
    · rw [hrange, ← List.append_assoc, hpushed, List.append_nil]
    · rw [← List.append_assoc, htaken, List.append_nil]
    · exact fun hnot => absurd hcleared hnot
    · intro _
      simpa using hticks
    · rintro _ (h | h | h) <;> cases h
  · obtain ⟨rfl, rfl⟩ := hs.uncleared hcleared
    have hpushed := hs.pushed
    have htaken := hs.taken
    simp only [List.append_nil] at hpushed htaken
    refine ⟨kept ++ [s.tickCounter + 1], [], hs.stale_le, hs.late_le, ?_, ?_, ?_, ?_, ?_⟩
    · rw [hrange, ← List.append_assoc, hpushed, List.append_nil, List.append_nil]
    · rw [← List.append_assoc, htaken, List.append_nil]
    · exact fun _ => ⟨rfl, rfl⟩
    · exact fun h => absurd h hcleared
    · exact fun h => absurd h hcleared

omit [DecidableEq ι] in
theorem Accounted.step (hc : s.Consistent) (hs : s.Accounted stale kept cleared late)
    (h : s.Steps op s') : ∃ stale kept cleared late, s'.Accounted stale kept cleared late := by
  have hrunning := hc.not_cleared
  obtain ⟨h1, h2, h3, h4, h5, h6, h7⟩ := id hs
  cases h
  case push hproducer => exact ⟨stale, (hs.push hproducer).imp fun _ h => ⟨cleared, h⟩⟩
  case createProducer hstarter =>
    refine ⟨s.ticks, s.ticks, [], [], ?_, ?_, ?_, ?_, ?_, ?_, ?_⟩ <;> grind [Starter.Cleared]
  case clear hstarter =>
    refine ⟨stale, s.processed, s.ticks, [], ?_, ?_, ?_, ?_, ?_, ?_, ?_⟩ <;> grind [Starter.Cleared]
  all_goals
    refine ⟨stale, kept, cleared, late, h1, h2, h3, ?_, ?_, ?_, ?_⟩ <;> grind [Starter.Cleared]

/-- What the consumer keeps from its inner loop to its next sleep, once it has been in it. -/
structure Drained (s : Threads ι) : Prop where
  fresh : s.starter = .creatingConsumer ∨ s.consumer = .locking → s.processed = []
  drained : s.processed ≠ [] → s.producer ≠ .notifying →
    s.consumer = .testing ∨ s.consumer = .waiting ∨ s.consumer = .asleep → s.ticks = []

omit [DecidableEq ι] in
theorem Drained.step (hc : s.Consistent) (hs : s.Drained) (h : s.Steps op s') : s'.Drained := by
  obtain ⟨h1, h2⟩ := hs
  have hproducer := hc.producer
  have hconsumer := hc.consumer
  have habsent := hc.absent
  have halone := hc.alone
  cases h <;> constructor <;> grind

theorem accounted_run (hs : s ∈ run? step fresh ops) :
    (∃ stale kept cleared late, s.Accounted stale kept cleared late) ∧ s.Drained := by
  refine (@run?_invariant _ _ step fresh (fun s : Threads ι => s.Consistent ∧
    (∃ stale kept cleared late, s.Accounted stale kept cleared late) ∧ s.Drained) ?_ ?_ _ _ hs).2
  · rintro s op s' ⟨hc, ⟨stale, kept, cleared, late, haccounted⟩, hdrained⟩ h
    exact ⟨hc.step (steps h), haccounted.step hc (steps h), hdrained.step hc (steps h)⟩
  · refine ⟨consistent_fresh, ⟨[], [], [], [], ?_⟩, ?_⟩ <;> constructor <;>
      simp [Threads.fresh, Starter.Cleared]

/-- One tick is processed, and the next is pushed when the consumer has already ended. -/
def lateTick : List (Move Unit) :=
  [.start, .starter, .starter, .starter, .starter, .starter, .consumer, .consumer, .consumer,
    .producer, .producer, .producer, .producer, .producer, .producer,
    .consumer, .consumer, .consumer, .consumer, .consumer, .consumer, .producer,
    .stop, .starter, .starter, .starter, .consumer, .consumer, .consumer, .consumer,
    .producer, .producer, .producer, .producer, .producer, .producer, .starter, .starter]

end Threads

end Coffee.Time
