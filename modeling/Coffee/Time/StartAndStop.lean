import Coffee.Library.Progress
import Coffee.Time.Threads

/-! # The start and the stop of the time service

`do_initialize` creates the threads while the service is still starting, and `do_stop` changes the
status and notifies without the mutex. Either can come between the test of a thread and what the
thread does next.
-/

namespace Coffee.Time

open Coffee.App (Status)
open Coffee.Library Runs

def Producer.work : Producer → Nat
  | .ended => 0
  | .testing => 1
  | .unlocking => 2
  | .notifying => 7
  | .pushing => 10
  | .locking => 11
  | .sleeping => 12

def Consumer.work : Consumer → Nat
  | .ended | .asleep | .lost => 0
  | .leaving | .waiting => 1
  | .testing | .popping => 2
  | .locking | .draining => 3
  | .woken => 4

def Starter.work : Starter → Nat
  | .joiningProducer => 2
  | .joiningConsumer => 1
  | _ => 0

theorem Consumer.work_notified (consumer : Consumer) :
    consumer.notified.work ≤ consumer.work + 4 := by
  cases consumer <;> decide

namespace Threads

variable {ι : Type*}

def Move.ofService : Move ι → Bool
  | .starter | .producer | .consumer => true
  | _ => false

/-- Nobody starts the service again, and the wait ends for no other reason than a notification. -/
def Move.Quiet : Move ι → Prop
  | .start | .wake => False
  | _ => True

/-- No thread of the service can move, and no client is in its way. -/
structure Still (s : Threads ι) : Prop where
  starter : s.advance = none
  producer : s.produce = none
  consumer : s.consume = none
  client : ∀ c, s.mutex ≠ some (.client c)

/-- The consumer is between its test and its wait, and the producer has notified for the last time. -/
def Missed (s : Threads ι) : Prop :=
  s.consumer = .waiting ∧ (s.producer = .testing ∨ s.producer = .ended)

/-- The consumer has popped a tick from an empty list, or is about to: the stop has cleared the ticks
behind its test. -/
def Robbed (s : Threads ι) : Prop := s.consumer = .lost ∨ s.consumer = .popping ∧ s.ticks = []

def Doomed (s : Threads ι) : Prop :=
  (s.consumer = .waiting ∨ s.consumer = .asleep) ∧ (s.producer = .testing ∨ s.producer = .ended)

/-- If the consumer goes to sleep, the producer has still to notify. -/
def Saved (s : Threads ι) : Prop :=
  s.consumer = .waiting ∨ s.consumer = .asleep → s.producer = .sleeping ∨ s.producer = .locking ∨
    s.producer = .pushing ∨ s.producer = .notifying

/-- The last notification of `do_stop` lies behind. -/
structure Ending (s : Threads ι) : Prop where
  consistent : s.Consistent
  starter : s.starter = .joiningProducer ∨ s.starter = .joiningConsumer ∨ s.starter = .stopped

variable {s s' last : Threads ι} {op : Move ι}

theorem Ending.not_running (hs : s.Ending) : s.status ≠ .Running := by
  rw [hs.consistent.status]
  rcases hs.starter with h | h | h <;> simp [h, Starter.status]

theorem Ending.step (hs : s.Ending) (hquiet : op.Quiet) (h : s.Steps op s') : s'.Ending := by
  have hstarter := hs.starter
  refine ⟨hs.consistent.step h, ?_⟩
  cases h <;> simp_all [Move.Quiet]

theorem Doomed.step (hs : s.Doomed) (hending : s.Ending) (hquiet : op.Quiet) (h : s.Steps op s') :
    s'.Doomed := by
  have hrunning := hending.not_running
  have hstarter := hending.starter
  cases h <;> grind [Doomed, Move.Quiet]

theorem Saved.step (hs : s.Saved) (hending : s.Ending) (hquiet : op.Quiet) (h : s.Steps op s') :
    s'.Saved := by
  have hrunning := hending.not_running
  have hstarter := hending.starter
  have hproducer := hending.consistent.producer
  have hconsumer := hending.consistent.consumer
  cases h <;> grind [Saved, Move.Quiet]

theorem Robbed.step (hs : s.Robbed) (hending : s.Ending) (h : s.Steps op s') : s'.Robbed := by
  have hconsumer := hending.consistent.consumer
  have hproducer := hending.consistent.producer
  have habsent := hending.consistent.absent
  have halone := hending.consistent.alone
  cases h <;> grind [Robbed]

theorem not_robbed_step (hs : ¬ s.Robbed) (hending : s.Ending) (h : s.Steps op s') :
    ¬ s'.Robbed := by
  have hstarter := hending.starter
  cases h <;> grind [Robbed, List.append_eq_nil_iff]

/-! ## How long a stop lasts -/

/-- The steps that the threads have still to make behind the last notification of `do_stop`. -/
def work (s : Threads ι) : Nat :=
  s.starter.work + s.producer.work + s.consumer.work + 2 * s.ticks.length

theorem work_step (hs : s.Ending) (hquiet : op.Quiet) (h : s.Steps op s') :
    s'.work + [op].countP Move.ofService ≤ s.work := by
  have hrunning := hs.not_running
  have hstarter := hs.starter
  have hnotified := s.consumer.work_notified
  cases h <;>
    simp_all [work, Move.ofService, Move.Quiet, Producer.work, Consumer.work, Starter.work] <;> omega

/-! ## How a stop ends -/

variable [DecidableEq ι] {ops post : List (Move ι)}

theorem ending_run (hs : s.Ending) (hquiet : ∀ op ∈ post, op.Quiet)
    (hlast : last ∈ run? step s post) :
    last.Ending ∧ (s.Doomed → last.Doomed) ∧ (s.Saved → last.Saved) ∧
      (s.Robbed ↔ last.Robbed) := by
  refine @run?_invariant_of_forall _ _ step Move.Quiet s _
    (fun last => last.Ending ∧ (s.Doomed → last.Doomed) ∧ (s.Saved → last.Saved) ∧
      (s.Robbed ↔ last.Robbed))
    (fun last op last' ⟨hending, hdoomed, hsaved, hrobbed⟩ hop hstep => ?_)
    ⟨hs, id, id, Iff.rfl⟩ _ hquiet hlast
  refine ⟨hending.step hop (steps hstep), fun h => (hdoomed h).step hending hop (steps hstep),
    fun h => (hsaved h).step hending hop (steps hstep), hrobbed.trans ⟨?_, ?_⟩⟩
  · exact fun h => h.step hending (steps hstep)
  · exact not_imp_not.mp fun hnot => not_robbed_step hnot hending (steps hstep)

omit [DecidableEq ι] in
/-- Behind the last notification: the service has stopped, or it waits for a consumer that sleeps or
that has popped a tick from an empty list. -/
theorem Still.cases (hstill : s.Still) (hs : s.Ending) :
    s.consumer = .ended ∧ s.starter = .stopped ∨
      s.producer = .ended ∧ s.consumer = .asleep ∧ s.starter = .joiningConsumer ∨
      s.consumer = .lost ∧ s.starter ≠ .stopped := by
  have hproducer := hs.consistent.producer
  have hconsumer := hs.consistent.consumer
  have habsent := hs.consistent.absent
  by_cases hlost : s.consumer = .lost
  · refine .inr (.inr ⟨hlost, fun hstopped => ?_⟩)
    rw [(habsent (.inl hstopped)).2] at hlost
    cases hlost
  have hfree : s.mutex = none := by
    cases hmutex : s.mutex with
    | none => rfl
    | some holder =>
      cases holder with
      | client c => exact absurd hmutex (hstill.client c)
      | starter =>
        have hholds := hs.consistent.starter.mp hmutex
        rcases hs.starter with h | h | h <;> simp [h] at hholds
      | producer =>
        have hmoves := hstill.producer
        rcases hproducer.mp hmutex with h | h | h <;> simp [produce, h] at hmoves
      | consumer =>
        have hmoves := hstill.consumer
        rcases hconsumer.mp hmutex with h | h | h | h | h | h <;> simp [consume, h] at hmoves
        · split at hmoves <;> cases hmoves
        · exact absurd h hlost
  have hended : s.producer = .ended := by
    have hmoves := hstill.producer
    cases h : s.producer <;> simp [produce, h, hfree] at hmoves ⊢
  have hmoves := hstill.consumer
  have hjoins := hstill.starter
  cases h : s.consumer <;> simp [consume, h, hfree] at hmoves
  case asleep =>
    refine .inr (.inl ⟨hended, rfl, ?_⟩)
    rcases hs.starter with h' | h' | h'
    · simp [advance, h', hended] at hjoins
    · exact h'
    · rw [h] at habsent
      cases (habsent (.inl h')).2
  case ended =>
    refine .inl ⟨rfl, ?_⟩
    rcases hs.starter with h' | h' | h' <;> simp [advance, h', hended, h] at hjoins ⊢
  case popping => split at hmoves <;> cases hmoves
  case lost => exact absurd h hlost

def betweenTestAndWait : List (Move Unit) :=
  [.start, .starter, .starter, .starter, .starter, .starter, .consumer, .consumer,
    .stop, .starter, .starter]

def leftAsleep : Threads Unit := ⟨.Stopped, none, [], 0, [], .ended, .asleep, .joiningConsumer⟩

theorem leftAsleep_still : leftAsleep.Still := ⟨rfl, rfl, rfl, fun _ => by simp [leftAsleep]⟩

/-- The service runs, and neither of its threads has given up. -/
structure Turning (s : Threads ι) : Prop where
  consistent : s.Consistent
  starter : s.starter = .running
  producer : s.producer ≠ .ended
  consumer : s.consumer ≠ .leaving ∧ s.consumer ≠ .ended

omit [DecidableEq ι] in
theorem Turning.step (hs : s.Turning) (hop : op ≠ .stop) (h : s.Steps op s') : s'.Turning := by
  have hstatus := hs.consistent.status
  refine ⟨hs.consistent.step h, ?_, ?_, ?_⟩ <;> obtain ⟨-, h1, h2, h3, h4⟩ := hs <;> cases h <;>
    grind [Starter.status]

def resting (producer : Producer) (ticks processed : List Nat) (tickCounter : Nat) : Threads ι :=
  ⟨.Running, none, ticks, tickCounter, processed, producer, .asleep, .running⟩

theorem leads_drained (producer : Producer) (ticks processed : List Nat) (tickCounter : Nat) :
    Leads step (· ≠ .stop) (⟨.Running, some .consumer, ticks, tickCounter, processed, producer,
      .draining, .running⟩ : Threads ι) (resting producer [] (processed ++ ticks) tickCounter) := by
  induction ticks generalizing processed with
  | nil =>
    rw [List.append_nil]
    exact ⟨[.consumer, .consumer, .consumer], by simp, rfl⟩
  | cons tick ticks ih =>
    have hpop : Leads step (· ≠ .stop) (⟨.Running, some .consumer, tick :: ticks, tickCounter,
        processed, producer, .draining, .running⟩ : Threads ι) ⟨.Running, some .consumer, ticks,
          tickCounter, processed ++ [tick], producer, .draining, .running⟩ :=
      ⟨[.consumer, .consumer], by simp, rfl⟩
    have hrest := ih (processed ++ [tick])
    rw [List.append_assoc, List.singleton_append] at hrest
    exact hpop.trans hrest

/-- A round of both threads: the next tick is pushed, and all that wait are processed. -/
theorem leads_round {producer : Producer} (hproducer : producer = .testing ∨ producer = .sleeping ∨
    producer = .locking) (ticks processed : List Nat) (tickCounter : Nat) :
    Leads step (· ≠ .stop) (resting producer ticks processed tickCounter : Threads ι)
      (resting .testing [] (processed ++ (ticks ++ [tickCounter + 1])) (tickCounter + 1)) := by
  have hlocking : Leads step (· ≠ .stop) (resting producer ticks processed tickCounter : Threads ι)
      (resting .locking ticks processed tickCounter) := by
    rcases hproducer with rfl | rfl | rfl
    · exact ⟨[.producer, .producer], by simp, rfl⟩
    · exact ⟨[.producer], by simp, rfl⟩
    · exact .refl _
  have hpushed : Leads step (· ≠ .stop) (resting .locking ticks processed tickCounter : Threads ι)
      ⟨.Running, some .consumer, ticks ++ [tickCounter + 1], tickCounter + 1, processed, .testing,
        .draining, .running⟩ :=
    ⟨[.producer, .producer, .producer, .producer, .consumer], by simp, rfl⟩
  exact (hlocking.trans hpushed).trans (leads_drained ..)

theorem exists_free (hs : s.Turning) : ∃ s₁, Leads step (· ≠ .stop) s s₁ ∧ s₁.mutex = none ∧
    s.processed.length ≤ s₁.processed.length := by
  have hstatus := hs.consistent.status
  obtain ⟨⟨⟨hholds, hproducer, hconsumer⟩, -, -, -, -, -, -, hpopping, hlost⟩, hstarter, -, hgone⟩ := hs
  obtain ⟨status, mutex, ticks, tickCounter, processed, producer, consumer, starter⟩ := s
  simp only at *
  subst hstarter
  subst hstatus
  cases mutex with
  | none => exact ⟨_, .refl _, rfl, Nat.le_refl _⟩
  | some holder =>
    cases holder with
    | starter => simp at hholds
    | client c =>
      exact ⟨_, ⟨[.unlock c], by simp, by simp [run?, step]; rfl⟩, rfl, Nat.le_refl _⟩
    | producer =>
      rcases hproducer.mp rfl with rfl | rfl | rfl
      · exact ⟨_, ⟨[.producer, .producer, .producer], by simp, rfl⟩, rfl, Nat.le_refl _⟩
      · exact ⟨_, ⟨[.producer, .producer], by simp, rfl⟩, rfl, Nat.le_refl _⟩
      · exact ⟨_, ⟨[.producer], by simp, rfl⟩, rfl, Nat.le_refl _⟩
    | consumer =>
      rcases hconsumer.mp rfl with rfl | rfl | rfl | rfl | rfl | rfl
      · exact ⟨_, ⟨[.consumer, .consumer], by simp, rfl⟩, rfl, Nat.le_refl _⟩
      · exact ⟨_, ⟨[.consumer], by simp, rfl⟩, rfl, Nat.le_refl _⟩
      · exact ⟨_, leads_drained .., rfl, by simp [resting]⟩
      · cases ticks with
        | nil => exact absurd (hpopping rfl rfl) id
        | cons tick ticks =>
          exact ⟨_, Leads.trans ⟨[.consumer], by simp, rfl⟩ (leads_drained ..), rfl,
            by simp [resting]⟩
      · exact absurd (hlost rfl) id
      · exact absurd rfl hgone.1

theorem exists_resting (hs : s.Turning) : ∃ producer ticks processed tickCounter,
    (producer = .testing ∨ producer = .sleeping ∨ producer = .locking) ∧
    Leads step (· ≠ .stop) s (resting producer ticks processed tickCounter) ∧
    s.processed.length ≤ processed.length := by
  obtain ⟨s₁, hleads, hfree, hlength⟩ := exists_free hs
  have hturning : s₁.Turning := hleads.invariant (fun _ _ _ hs hop h => hs.step hop (steps h)) hs
  have hstatus := hturning.consistent.status
  obtain ⟨⟨⟨-, hproducer, hconsumer⟩, -⟩, hstarter, hends, hgone⟩ := hturning
  obtain ⟨status, mutex, ticks, tickCounter, processed, producer, consumer, starter⟩ := s₁
  simp only at *
  subst hstarter
  subst hstatus
  subst hfree
  have houtside : producer = .testing ∨ producer = .sleeping ∨ producer = .locking := by
    cases producer <;> simp_all
  cases consumer <;> simp at hconsumer hgone
  case locking =>
    exact ⟨producer, ticks, processed, tickCounter, houtside,
      hleads.trans ⟨[.consumer, .consumer, .consumer], by simp, rfl⟩, hlength⟩
  case asleep => exact ⟨producer, ticks, processed, tickCounter, houtside, hleads, hlength⟩
  case woken =>
    refine ⟨producer, [], processed ++ ticks, tickCounter, houtside, ?_, by simp; omega⟩
    exact hleads.trans (Leads.trans ⟨[.consumer], by simp, rfl⟩ (leads_drained ..))

theorem exists_later (hs : s.Turning) (n : Nat) : ∃ later, Leads step (· ≠ .stop) s later ∧
    s.processed.length + n ≤ later.processed.length := by
  obtain ⟨producer, ticks, processed, tickCounter, hproducer, hleads, hlength⟩ := exists_resting hs
  suffices hrounds : ∃ producer ticks processed' tickCounter,
      (producer = .testing ∨ producer = .sleeping ∨ producer = .locking) ∧
      Leads step (· ≠ .stop) s (resting producer ticks processed' tickCounter) ∧
      processed.length + n ≤ processed'.length by
    obtain ⟨_, _, _, _, -, hlater, hlength'⟩ := hrounds
    exact ⟨_, hlater, by simp only [resting]; omega⟩
  induction n with
  | zero => exact ⟨_, _, _, _, hproducer, hleads, Nat.le_refl _⟩
  | succ n ih =>
    obtain ⟨_, _, _, _, hproducer', hleads', hlength'⟩ := ih
    exact ⟨_, _, _, _, .inl rfl, hleads'.trans (leads_round hproducer' ..), by simp; omega⟩

/-- One of the threads has given up, so not more than so many ticks are ever processed. -/
def Stands (bound : Nat) (s : Threads ι) : Prop :=
  s.starter = .running ∧ (s.producer = .ended ∧ s.processed.length + s.ticks.length ≤ bound ∨
    (s.consumer = .leaving ∨ s.consumer = .ended) ∧ s.processed.length ≤ bound)

omit [DecidableEq ι] in
theorem Stands.step {bound : Nat} (hs : s.Stands bound) (hop : op ≠ .stop) (h : s.Steps op s') :
    s'.Stands bound := by
  cases h <;> grind [Stands]

def earlyTest : List (Move Unit) := [.start, .starter, .starter, .starter, .producer, .starter]

end Threads

end Coffee.Time
