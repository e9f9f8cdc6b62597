import Coffee.Basis.Text
import Coffee.Library.Runs
import Mathlib.Data.List.AList
import Mathlib.Data.List.Count

/-! # Subjects and observers

A `Subject` keeps its observers in a table by name, and an `Observer` keeps a flag that says that it
is in some table. Observers are shared pointers: the client holds one, and each table holds one of
every observer in it.
-/

namespace Coffee.Basis.Pattern

open Coffee.Library

/-- `held` says that the client still has its pointer, and `useCount` counts all of them. -/
structure Observer where
  m_name : Bytes
  m_isSubscribed : Bool
  held : Bool
  useCount : Nat
deriving DecidableEq, Repr

structure Subject where
  m_name : Bytes
  m_observers : AList fun _ : Bytes => Nat

structure World where
  observers : Nat → Option Observer
  subjects : Nat → Option Subject

/-- The virtual functions that a subject calls. -/
inductive Callback where
  | attached (subject observer : Nat)
  | detached (subject observer : Nat)
  | update (subject observer : Nat) (event : Int)
deriving DecidableEq, Repr

namespace Observer

def modify (observers : Nat → Option Observer) (i : Nat) (change : Observer → Option Observer) :
    Nat → Option Observer :=
  Function.update observers i ((observers i).bind change)

def isSubscribed (value : Bool) (observer : Observer) : Option Observer :=
  some { observer with m_isSubscribed := value }

/-- A pointer goes away, and the observer with the last one. -/
def release (observer : Observer) : Option Observer :=
  if observer.useCount = 1 then none else some { observer with useCount := observer.useCount - 1 }

end Observer

namespace World

open Observer

def empty : World := ⟨fun _ => none, fun _ => none⟩

def attach (world : World) (s : Nat) (subject : Subject) (i : Nat) (observer : Observer) :
    Except RuntimeException (List Callback) × World :=
  if observer.m_name ∈ subject.m_observers then (.ok [], world)
  else if observer.m_isSubscribed then
    (.error ⟨NamedObject.asString observer.m_name ++ text " already subscribed"⟩, world)
  else
    (.ok [.attached s i],
      { observers := Function.update world.observers i
          (some { observer with m_isSubscribed := true, useCount := observer.useCount + 1 })
        subjects := Function.update world.subjects s
          (some { subject with m_observers := subject.m_observers.insert observer.m_name i }) })

def detach (world : World) (s : Nat) (subject : Subject) (observerName : Bytes) :
    Bool × List Callback × World :=
  match subject.m_observers.lookup observerName with
  | none => (false, [], world)
  | some i =>
    (true, [.detached s i],
      { observers := modify (modify world.observers i (isSubscribed false)) i release
        subjects := Function.update world.subjects s
          (some { subject with m_observers := subject.m_observers.erase observerName }) })

/-- The observers in the order of the table, which is up to the library. -/
def observersOf (subject : Subject) : List Nat := subject.m_observers.entries.map Sigma.snd

def notify (s : Nat) (subject : Subject) (event : Int) : List Callback :=
  (observersOf subject).map fun i => .update s i event

/-- The destructor `~Subject`. -/
def destroySubject (world : World) (s : Nat) (subject : Subject) : List Callback × World :=
  let unsubscribed := (observersOf subject).foldl (fun observers i =>
    modify observers i (isSubscribed false)) world.observers
  ((observersOf subject).map (.detached s),
    { observers := (observersOf subject).foldl (fun observers i => modify observers i release)
        unsubscribed
      subjects := Function.update world.subjects s none })

/-- The client gives its pointer away, which destroys an observer that no table keeps alive. -/
def releaseObserver (world : World) (i : Nat) (observer : Observer) : World :=
  { world with
    observers := modify
      (Function.update world.observers i (some { observer with held := false })) i release }

inductive Operation where
  | newObserver (i : Nat) (name : Bytes)
  | newSubject (s : Nat) (name : Bytes)
  | attach (s i : Nat)
  | detach (s : Nat) (observerName : Bytes)
  | notify (s : Nat) (event : Int)
  | destroySubject (s : Nat)
  | releaseObserver (i : Nat)
deriving Repr

/-- What needs an object that is not there is not done. New objects take any free place. -/
def step (world : World) : Operation → World
  | .newObserver i name =>
    match world.observers i with
    | some _ => world
    | none => { world with
        observers := Function.update world.observers i (some ⟨name, false, true, 1⟩) }
  | .newSubject s name =>
    match world.subjects s with
    | some _ => world
    | none => { world with subjects := Function.update world.subjects s (some ⟨name, ∅⟩) }
  | .attach s i =>
    match world.subjects s, world.observers i with
    | some subject, some observer =>
      if observer.held then (world.attach s subject i observer).2 else world
    | _, _ => world
  | .detach s observerName =>
    match world.subjects s with
    | some subject => (world.detach s subject observerName).2.2
    | none => world
  | .notify _ _ => world
  | .destroySubject s =>
    match world.subjects s with
    | some subject => (world.destroySubject s subject).2
    | none => world
  | .releaseObserver i =>
    match world.observers i with
    | some observer => if observer.held then world.releaseObserver i observer else world
    | none => world

def Entry (world : World) (s : Nat) (name : Bytes) (i : Nat) : Prop :=
  ∃ subject, world.subjects s = some subject ∧ i ∈ subject.m_observers.lookup name

def InTable (world : World) (s i : Nat) : Prop :=
  ∃ subject, world.subjects s = some subject ∧ i ∈ observersOf subject

theorem modify_self (observers : Nat → Option Observer) (i : Nat)
    (change : Observer → Option Observer) :
    modify observers i change i = (observers i).bind change := Function.update_self _ _ _

theorem modify_of_ne (observers : Nat → Option Observer) {i j : Nat} (h : j ≠ i)
    (change : Observer → Option Observer) : modify observers i change j = observers j :=
  Function.update_of_ne h _ _

theorem foldl_modify {numbers : List Nat} (hnodup : numbers.Nodup)
    (observers : Nat → Option Observer) (change : Observer → Option Observer) (j : Nat) :
    numbers.foldl (fun observers i => modify observers i change) observers j =
      if j ∈ numbers then (observers j).bind change else observers j := by
  induction numbers generalizing observers with
  | nil => simp
  | cons i numbers ih =>
    obtain ⟨hhead, htail⟩ := List.nodup_cons.mp hnodup
    rw [List.foldl_cons, ih htail]
    by_cases hj : j = i
    · subst hj
      rw [if_neg hhead, if_pos List.mem_cons_self, modify_self]
    · have hmem : j ∈ i :: numbers ↔ j ∈ numbers := by simp [hj]
      simp only [hmem, modify_of_ne observers hj]

/-- An observer that leaves its table. -/
def freed (observer : Observer) : Option Observer := (isSubscribed false observer).bind release

theorem mem_freed {observer after : Observer}
    (hcount : observer.useCount = observer.held.toNat + 1) (h : after ∈ freed observer) :
    after.m_isSubscribed = false ∧ after.useCount = after.held.toNat := by
  rw [freed, isSubscribed, Option.bind_some, release] at h
  split at h
  · cases h
  · cases h
    refine ⟨rfl, ?_⟩
    simp [hcount]

/-- The tables and the flags tell the same, and every pointer is counted. -/
structure Consistent (world : World) : Prop where
  entry : ∀ s name i, world.Entry s name i →
    ∃ observer, world.observers i = some observer ∧ observer.m_name = name ∧
      observer.m_isSubscribed = true
  subscribed : ∀ i observer, world.observers i = some observer → observer.m_isSubscribed = true →
    ∃ s, world.Entry s observer.m_name i
  exclusive : ∀ s s' name name' i, world.Entry s name i → world.Entry s' name' i → s = s'
  counted : ∀ i observer, world.observers i = some observer →
    observer.useCount = observer.held.toNat + observer.m_isSubscribed.toNat

variable {world world' : World} {s i : Nat}

theorem inTable_iff_entry : world.InTable s i ↔ ∃ name, world.Entry s name i := by
  unfold InTable Entry observersOf
  constructor
  · rintro ⟨subject, hsubject, hmem⟩
    obtain ⟨⟨name, j⟩, hentry, rfl⟩ := List.mem_map.mp hmem
    exact ⟨name, subject, hsubject, AList.mem_lookup_iff.mpr hentry⟩
  · rintro ⟨name, subject, hsubject, hlookup⟩
    exact ⟨subject, hsubject, List.mem_map.mpr ⟨⟨name, i⟩, AList.mem_lookup_iff.mp hlookup, rfl⟩⟩

theorem Consistent.observersOf_nodup (h : world.Consistent) {subject : Subject}
    (hsubject : world.subjects s = some subject) : (observersOf subject).Nodup := by
  have hkeys : subject.m_observers.entries.Nodup := List.NodupKeys.nodup subject.m_observers.nodupKeys
  refine hkeys.map_on ?_
  rintro ⟨name, i⟩ hi ⟨name', i'⟩ hi' heq
  cases heq
  obtain ⟨observer, hobserver, hname, -⟩ :=
    h.entry s name i ⟨subject, hsubject, AList.mem_lookup_iff.mpr hi⟩
  obtain ⟨observer', hobserver', hname', -⟩ :=
    h.entry s name' i ⟨subject, hsubject, AList.mem_lookup_iff.mpr hi'⟩
  cases hobserver.symm.trans hobserver'
  rw [← hname, ← hname']

/-- Observers leave the table of a subject, or all of them with the subject. -/
theorem Consistent.remove (h : world.Consistent) {Leaves : Nat → Prop} [DecidablePred Leaves]
    (hothers : ∀ s', s' ≠ s → ∀ name i, world'.Entry s' name i ↔ world.Entry s' name i)
    (htable : ∀ name i, world'.Entry s name i ↔ world.Entry s name i ∧ ¬ Leaves i)
    (hleaves : ∀ i, Leaves i → ∃ name, world.Entry s name i)
    (hobservers : ∀ i, world'.observers i =
      if Leaves i then (world.observers i).bind freed else world.observers i) :
    world'.Consistent := by
  have hfreed : ∀ i, Leaves i → ∀ after ∈ (world.observers i).bind freed,
      after.m_isSubscribed = false ∧ after.useCount = after.held.toNat := by
    intro i hleave after hafter
    obtain ⟨name, hentry⟩ := hleaves i hleave
    obtain ⟨observer, hobserver, -, hsubscribed⟩ := h.entry s name i hentry
    have hcount := h.counted i observer hobserver
    rw [hsubscribed, Bool.toNat_true] at hcount
    rw [hobserver, Option.bind_some] at hafter
    exact mem_freed hcount hafter
  have hback : ∀ s' name i, world'.Entry s' name i → world.Entry s' name i ∧ ¬ Leaves i := by
    intro s' name i hentry
    by_cases hs : s' = s
    · subst hs
      exact (htable name i).mp hentry
    · have hbefore := (hothers s' hs name i).mp hentry
      refine ⟨hbefore, fun hleave => ?_⟩
      obtain ⟨name', hthere⟩ := hleaves i hleave
      exact hs (h.exclusive s' s name name' i hbefore hthere)
  refine ⟨?_, ?_, ?_, ?_⟩
  · intro s' name i hentry
    obtain ⟨hbefore, hstays⟩ := hback s' name i hentry
    rw [hobservers, if_neg hstays]
    exact h.entry s' name i hbefore
  · intro i observer hobserver hsubscribed
    rw [hobservers] at hobserver
    split at hobserver
    · rename_i hleave
      rw [(hfreed i hleave observer hobserver).1] at hsubscribed
      cases hsubscribed
    · rename_i hstays
      obtain ⟨s', hentry⟩ := h.subscribed i observer hobserver hsubscribed
      refine ⟨s', ?_⟩
      by_cases hs : s' = s
      · subst hs
        exact (htable _ i).mpr ⟨hentry, hstays⟩
      · exact (hothers s' hs _ i).mpr hentry
  · intro s₁ s₂ name name' i h₁ h₂
    exact h.exclusive s₁ s₂ name name' i (hback s₁ name i h₁).1 (hback s₂ name' i h₂).1
  · intro i observer hobserver
    rw [hobservers] at hobserver
    split at hobserver
    · rename_i hleave
      obtain ⟨hflag, hcount⟩ := hfreed i hleave observer hobserver
      rw [hflag, hcount, Bool.toNat_false, Nat.add_zero]
    · exact h.counted i observer hobserver

theorem entry_update {observers : Nat → Option Observer} {subject : Option Subject} {s' : Nat}
    {name : Bytes} (hs : s' ≠ s) :
    Entry ⟨observers, Function.update world.subjects s subject⟩ s' name i ↔
      world.Entry s' name i := by
  simp only [Entry, Function.update_of_ne hs]

theorem entry_updated {observers : Nat → Option Observer} {subject : Subject} {name : Bytes} :
    Entry ⟨observers, Function.update world.subjects s (some subject)⟩ s name i ↔
      i ∈ subject.m_observers.lookup name := by
  simp [Entry]

theorem Consistent.detach (h : world.Consistent) {subject : Subject}
    (hsubject : world.subjects s = some subject) (observerName : Bytes) :
    (world.detach s subject observerName).2.2.Consistent := by
  rw [World.detach]
  cases hlookup : subject.m_observers.lookup observerName with
  | none => exact h
  | some i =>
    have hentry : world.Entry s observerName i := ⟨subject, hsubject, hlookup⟩
    have hname : ∀ name j, world.Entry s name j → (name = observerName ↔ j = i) := by
      intro name j hthere
      constructor
      · rintro rfl
        obtain ⟨subject', hsubject', hj⟩ := hthere
        cases hsubject.symm.trans hsubject'
        exact Option.some.inj (hj.symm.trans hlookup)
      · rintro rfl
        obtain ⟨observer, hobserver, rfl, -⟩ := h.entry s name j hthere
        obtain ⟨observer', hobserver', rfl, -⟩ := h.entry s observerName j hentry
        cases hobserver.symm.trans hobserver'
        rfl
    refine @Consistent.remove world _ s h (· = i) _ (fun s' hs name j => entry_update hs) ?_ ?_ ?_
    · intro name j
      rw [entry_updated]
      dsimp only
      by_cases hn : name = observerName
      · rw [hn, AList.lookup_erase]
        refine iff_of_false (fun hj => by cases hj) fun hj => hj.2 ?_
        exact (hname observerName j hj.1).mp rfl
      · rw [AList.lookup_erase_ne hn]
        constructor
        · intro hj
          have hthere : world.Entry s name j := ⟨subject, hsubject, hj⟩
          exact ⟨hthere, fun hji => hn ((hname name j hthere).mpr hji)⟩
        · rintro ⟨⟨subject', hsubject', hj⟩, -⟩
          cases hsubject.symm.trans hsubject'
          exact hj
    · rintro j rfl
      exact ⟨observerName, hentry⟩
    · intro j
      dsimp only
      split
      · rename_i hj
        rw [hj, modify_self, modify_self, Option.bind_assoc]
        rfl
      · rename_i hj
        rw [modify_of_ne _ hj, modify_of_ne _ hj]

theorem Consistent.destroySubject (h : world.Consistent) {subject : Subject}
    (hsubject : world.subjects s = some subject) :
    (world.destroySubject s subject).2.Consistent := by
  have hnodup := h.observersOf_nodup hsubject
  have hmem : ∀ name i, world.Entry s name i → i ∈ observersOf subject := by
    intro name i hentry
    obtain ⟨subject', hsubject', hin⟩ := inTable_iff_entry.mpr ⟨name, hentry⟩
    cases hsubject.symm.trans hsubject'
    exact hin
  refine @Consistent.remove world _ s h (· ∈ observersOf subject) _
    (fun s' hs name j => entry_update hs) ?_ ?_ ?_
  · intro name j
    constructor
    · rintro ⟨subject', hsubject', -⟩
      simp [World.destroySubject] at hsubject'
    · rintro ⟨hentry, hnot⟩
      exact absurd (hmem name j hentry) hnot
  · exact fun j hj => inTable_iff_entry.mp ⟨subject, hsubject, hj⟩
  · intro j
    dsimp only [World.destroySubject]
    rw [foldl_modify hnodup, foldl_modify hnodup]
    split
    · rw [Option.bind_assoc]
      rfl
    · rfl

theorem entry_attach {observers : Nat → Option Observer} {subject : Subject} {name : Bytes}
    {s' j : Nat} {name' : Bytes} (hsubject : world.subjects s = some subject)
    (hnew : name ∉ subject.m_observers) :
    Entry ⟨observers, Function.update world.subjects s
      (some { subject with m_observers := subject.m_observers.insert name i })⟩ s' name' j ↔
        s' = s ∧ name' = name ∧ j = i ∨ world.Entry s' name' j := by
  by_cases hs : s' = s
  · subst hs
    have hentry : world.Entry s' name' j ↔ j ∈ subject.m_observers.lookup name' := by
      simp [Entry, hsubject]
    rw [entry_updated, hentry]
    by_cases hname : name' = name
    · subst hname
      simp [AList.lookup_eq_none.mpr hnew, eq_comm]
    · simp [AList.lookup_insert_ne hname, hname]
  · rw [entry_update hs]
    simp [hs]

theorem Consistent.attach (h : world.Consistent) {subject : Subject} {observer : Observer}
    (hsubject : world.subjects s = some subject) (hobserver : world.observers i = some observer) :
    (world.attach s subject i observer).2.Consistent := by
  rw [World.attach]
  split
  · exact h
  · rename_i hnew
    split
    · exact h
    · rename_i hfree
      have hnowhere : ∀ s' name, ¬ world.Entry s' name i := by
        intro s' name hentry
        obtain ⟨observer', hobserver', -, hsubscribed⟩ := h.entry s' name i hentry
        cases hobserver.symm.trans hobserver'
        exact hfree hsubscribed
      dsimp only
      refine ⟨?_, ?_, ?_, ?_⟩
      · intro s' name j hentry
        dsimp only
        rcases (entry_attach hsubject hnew).mp hentry with ⟨-, rfl, rfl⟩ | hbefore
        · exact ⟨_, Function.update_self _ _ _, rfl, rfl⟩
        · have hne : j ≠ i := fun hji => hnowhere s' name (hji ▸ hbefore)
          rw [Function.update_of_ne hne]
          exact h.entry s' name j hbefore
      · intro j observer' hobserver' hsubscribed
        dsimp only at hobserver'
        by_cases hj : j = i
        · subst hj
          rw [Function.update_self] at hobserver'
          cases hobserver'
          exact ⟨s, (entry_attach hsubject hnew).mpr (Or.inl ⟨rfl, rfl, rfl⟩)⟩
        · rw [Function.update_of_ne hj] at hobserver'
          obtain ⟨s', hentry⟩ := h.subscribed j observer' hobserver' hsubscribed
          exact ⟨s', (entry_attach hsubject hnew).mpr (Or.inr hentry)⟩
      · intro s₁ s₂ name name' j h₁ h₂
        rcases (entry_attach hsubject hnew).mp h₁ with ⟨rfl, rfl, rfl⟩ | hbefore₁
        · rcases (entry_attach hsubject hnew).mp h₂ with ⟨rfl, -, -⟩ | hbefore₂
          · rfl
          · exact absurd hbefore₂ (hnowhere s₂ name')
        · rcases (entry_attach hsubject hnew).mp h₂ with ⟨-, -, rfl⟩ | hbefore₂
          · exact absurd hbefore₁ (hnowhere s₁ name)
          · exact h.exclusive s₁ s₂ name name' j hbefore₁ hbefore₂
      · intro j observer' hobserver'
        dsimp only at hobserver'
        by_cases hj : j = i
        · subst hj
          rw [Function.update_self] at hobserver'
          cases hobserver'
          have hcount := h.counted j observer hobserver
          rw [Bool.eq_false_iff.mpr hfree, Bool.toNat_false, Nat.add_zero] at hcount
          simp [hcount]
        · rw [Function.update_of_ne hj] at hobserver'
          exact h.counted j observer' hobserver'

theorem Consistent.releaseObserver (h : world.Consistent) {observer : Observer}
    (hobserver : world.observers i = some observer) (hheld : observer.held = true) :
    (world.releaseObserver i observer).Consistent := by
  have hcount := h.counted i observer hobserver
  rw [hheld, Bool.toNat_true] at hcount
  have hself : (world.releaseObserver i observer).observers i =
      if observer.m_isSubscribed then
        some { observer with held := false, useCount := 1 } else none := by
    rw [World.releaseObserver]
    dsimp only
    rw [modify_self, Function.update_self, Option.bind_some, release]
    cases hsubscribed : observer.m_isSubscribed <;> simp [hcount, hsubscribed]
  have hothers : ∀ j, j ≠ i → (world.releaseObserver i observer).observers j =
      world.observers j := by
    intro j hj
    rw [World.releaseObserver]
    dsimp only
    rw [modify_of_ne _ hj, Function.update_of_ne hj]
  refine ⟨?_, ?_, h.exclusive, ?_⟩
  · intro s' name j hthere
    obtain ⟨observer', hobserver', hname, hsubscribed⟩ := h.entry s' name j hthere
    by_cases hj : j = i
    · subst hj
      cases hobserver.symm.trans hobserver'
      rw [hself, if_pos hsubscribed]
      exact ⟨_, rfl, hname, hsubscribed⟩
    · rw [hothers j hj]
      exact ⟨observer', hobserver', hname, hsubscribed⟩
  · intro j observer' hobserver' hsubscribed
    by_cases hj : j = i
    · subst hj
      rw [hself] at hobserver'
      split at hobserver'
      · rename_i hflag
        cases hobserver'
        exact h.subscribed j observer hobserver hflag
      · cases hobserver'
    · rw [hothers j hj] at hobserver'
      exact h.subscribed j observer' hobserver' hsubscribed
  · intro j observer' hobserver'
    by_cases hj : j = i
    · subst hj
      rw [hself] at hobserver'
      split at hobserver'
      · rename_i hflag
        cases hobserver'
        simp [hflag]
      · cases hobserver'
    · rw [hothers j hj] at hobserver'
      exact h.counted j observer' hobserver'

theorem Consistent.newObserver (h : world.Consistent) (hfree : world.observers i = none)
    (name : Bytes) : Consistent { world with
      observers := Function.update world.observers i (some ⟨name, false, true, 1⟩) } := by
  have hothers : ∀ j, j ≠ i → Function.update world.observers i (some ⟨name, false, true, 1⟩) j =
      world.observers j := fun j hj => Function.update_of_ne hj _ _
  refine ⟨?_, ?_, h.exclusive, ?_⟩
  · intro s' name' j hentry
    obtain ⟨observer, hobserver, hrest⟩ := h.entry s' name' j hentry
    have hj : j ≠ i := by
      rintro rfl
      cases hfree.symm.trans hobserver
    exact ⟨observer, (hothers j hj).trans hobserver, hrest⟩
  · intro j observer hobserver hsubscribed
    by_cases hj : j = i
    · subst hj
      cases (Function.update_self _ _ _).symm.trans hobserver
      cases hsubscribed
    · exact h.subscribed j observer ((hothers j hj).symm.trans hobserver) hsubscribed
  · intro j observer hobserver
    by_cases hj : j = i
    · subst hj
      cases (Function.update_self _ _ _).symm.trans hobserver
      rfl
    · exact h.counted j observer ((hothers j hj).symm.trans hobserver)

theorem Consistent.newSubject (h : world.Consistent) (hfree : world.subjects s = none)
    (name : Bytes) : Consistent { world with
      subjects := Function.update world.subjects s (some ⟨name, ∅⟩) } := by
  have hentry : ∀ s' name' i, Entry { world with
      subjects := Function.update world.subjects s (some ⟨name, ∅⟩) } s' name' i ↔
        world.Entry s' name' i := by
    intro s' name' i
    by_cases hs : s' = s
    · subst hs
      simp [Entry, hfree]
    · exact entry_update hs
  refine ⟨?_, ?_, ?_, h.counted⟩
  · intro s' name' i hthere
    exact h.entry s' name' i ((hentry s' name' i).mp hthere)
  · intro i observer hobserver hsubscribed
    obtain ⟨s', hthere⟩ := h.subscribed i observer hobserver hsubscribed
    exact ⟨s', (hentry s' _ i).mpr hthere⟩
  · intro s₁ s₂ name₁ name₂ i h₁ h₂
    exact h.exclusive s₁ s₂ name₁ name₂ i ((hentry s₁ name₁ i).mp h₁) ((hentry s₂ name₂ i).mp h₂)

theorem Consistent.step (h : world.Consistent) (operation : Operation) :
    (world.step operation).Consistent := by
  cases operation with
  | notify s event => exact h
  | newObserver i name =>
    rw [World.step]
    split
    · exact h
    · rename_i hfree
      exact h.newObserver hfree name
  | newSubject s name =>
    rw [World.step]
    split
    · exact h
    · rename_i hfree
      exact h.newSubject hfree name
  | attach s i =>
    rw [World.step]
    split
    · rename_i subject observer hsubject hobserver
      split
      · exact h.attach hsubject hobserver
      · exact h
    · exact h
  | detach s observerName =>
    rw [World.step]
    split
    · rename_i subject hsubject
      exact h.detach hsubject observerName
    · exact h
  | destroySubject s =>
    rw [World.step]
    split
    · rename_i subject hsubject
      exact h.destroySubject hsubject
    · exact h
  | releaseObserver i =>
    rw [World.step]
    split
    · rename_i observer hobserver
      split
      · rename_i hheld
        exact h.releaseObserver hobserver hheld
      · exact h
    · exact h

theorem consistent_empty : empty.Consistent where
  entry s name i h := by
    obtain ⟨subject, hsubject, -⟩ := h
    cases hsubject
  subscribed i observer h := by cases h
  exclusive s s' name name' i h := by
    obtain ⟨subject, hsubject, -⟩ := h
    cases hsubject
  counted i observer h := by cases h

/-- What the flags, the tables and the callbacks promise in every state. -/
structure Exclusive (world : World) : Prop where
  subscribed_iff : ∀ i observer, world.observers i = some observer →
    (observer.m_isSubscribed = true ↔ ∃! s, world.InTable s i)
  one_table : ∀ s s' i, world.InTable s i → world.InTable s' i → s = s'
  live : ∀ s i, world.InTable s i → (world.observers i).isSome = true
  names : ∀ s i i' observer observer', world.InTable s i → world.InTable s i' →
    world.observers i = some observer → world.observers i' = some observer' →
    observer.m_name = observer'.m_name → i = i'
  attach_unchanged : ∀ s subject i observer, world.subjects s = some subject →
    world.observers i = some observer →
    ((∃ ex, (world.attach s subject i observer).1 = .error ex) ∨
      observer.m_name ∈ subject.m_observers) → (world.attach s subject i observer).2 = world
  notify_once : ∀ s subject event i, world.subjects s = some subject →
    (notify s subject event).count (.update s i event) = if i ∈ observersOf subject then 1 else 0

theorem attach_unchanged {subject : Subject} {observer : Observer}
    (h : (∃ ex, (world.attach s subject i observer).1 = .error ex) ∨
      observer.m_name ∈ subject.m_observers) : (world.attach s subject i observer).2 = world := by
  rcases h with ⟨ex, hthrows⟩ | hknown
  · unfold World.attach at hthrows ⊢
    split at hthrows
    · cases hthrows
    · rename_i hnew
      split at hthrows
      · rename_i hsubscribed
        rw [if_neg hnew, if_pos hsubscribed]
      · cases hthrows
  · rw [World.attach, if_pos hknown]

theorem Consistent.one_table (h : world.Consistent) {s' : Nat} (hs : world.InTable s i)
    (hs' : world.InTable s' i) : s = s' := by
  obtain ⟨name, hentry⟩ := inTable_iff_entry.mp hs
  obtain ⟨name', hentry'⟩ := inTable_iff_entry.mp hs'
  exact h.exclusive s s' name name' i hentry hentry'

theorem Consistent.inTable_iff (h : world.Consistent) {observer : Observer}
    (hobserver : world.observers i = some observer) :
    world.InTable s i ↔ world.Entry s observer.m_name i := by
  rw [inTable_iff_entry]
  constructor
  · rintro ⟨name, hentry⟩
    obtain ⟨observer', hobserver', rfl, -⟩ := h.entry s name i hentry
    cases hobserver.symm.trans hobserver'
    exact hentry
  · exact fun hentry => ⟨_, hentry⟩

theorem Consistent.subscribed_iff (h : world.Consistent) {observer : Observer}
    (hobserver : world.observers i = some observer) :
    observer.m_isSubscribed = true ↔ ∃! s, world.InTable s i := by
  constructor
  · intro hsubscribed
    obtain ⟨s, hentry⟩ := h.subscribed i observer hobserver hsubscribed
    have htable : world.InTable s i := inTable_iff_entry.mpr ⟨_, hentry⟩
    exact ⟨s, htable, fun s' hs' => h.one_table hs' htable⟩
  · rintro ⟨s, htable, -⟩
    obtain ⟨observer', hobserver', -, hsubscribed⟩ :=
      h.entry s _ i ((h.inTable_iff hobserver).mp htable)
    cases hobserver.symm.trans hobserver'
    exact hsubscribed

theorem Consistent.exclusive_world (h : world.Consistent) : world.Exclusive where
  subscribed_iff i observer hobserver := h.subscribed_iff hobserver
  one_table s s' i hs hs' := h.one_table hs hs'
  live s i htable := by
    obtain ⟨name, hentry⟩ := inTable_iff_entry.mp htable
    obtain ⟨observer, hobserver, -⟩ := h.entry s name i hentry
    exact Option.isSome_of_mem hobserver
  names s i i' observer observer' hi hi' hobserver hobserver' hname := by
    obtain ⟨subject, hsubject, hlookup⟩ := (h.inTable_iff hobserver).mp hi
    obtain ⟨subject', hsubject', hlookup'⟩ := (h.inTable_iff hobserver').mp hi'
    cases hsubject.symm.trans hsubject'
    rw [hname] at hlookup
    exact Option.some.inj (hlookup.symm.trans hlookup')
  attach_unchanged s subject i observer _ _ hfails := attach_unchanged hfails
  notify_once s subject event i hsubject := by
    have hinjective : Function.Injective fun i => Callback.update s i event := by
      intro i j hij
      cases hij
      rfl
    rw [notify, List.count_map_of_injective _ _ hinjective]
    split
    · rename_i hmem
      exact List.count_eq_one_of_mem (h.observersOf_nodup hsubject) hmem
    · rename_i hmem
      exact List.count_eq_zero_of_not_mem hmem

/-- In every state that creations, attachments, detachments and destructions of subjects and
observers lead to, an observer is subscribed just when exactly one subject has it in its table. -/
theorem exclusive_run (operations : List Operation) :
    (Runs.run step empty operations).Exclusive := by
  have hstep : ∀ (world : World) operation, world.Consistent → (world.step operation).Consistent :=
    fun _ operation h => h.step operation
  exact (Runs.invariant hstep consistent_empty operations).exclusive_world

end World

end Coffee.Basis.Pattern
