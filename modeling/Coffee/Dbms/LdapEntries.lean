import Coffee.Dbms.Cursor
import Mathlib.Data.List.Count

/-! # The entries of a search

`LdapStatement` gives each entry back when it moves on to the next one, and the rest never. The pointer
to a result is the one to its first entry.
-/

namespace Coffee.Dbms

open Coffee.Library Runs

/-- An entry by its search and its place in the result. -/
abbrev LdapEntry := Nat × Nat

/-- A statement, the numbers of entries that its searches have found, the entries that were given back
and those that were read when they had been. -/
structure LdapEntries where
  statement : LdapStatement
  found : List Nat
  freed : List LdapEntry
  dangling : List LdapEntry
deriving DecidableEq, Repr

namespace LdapEntries

def instantiate : LdapEntries := ⟨⟨none, none⟩, [], [], []⟩

variable (entries : LdapEntries)

/-- The search that the result in hand is from. -/
def search : Nat := entries.found.length - 1

def read (place : Option Nat) : LdapEntries :=
  { entries with dangling := entries.dangling ++
      (place.toList.map (entries.search, ·)).filter (entries.freed.contains ·) }

def ldap_memfree (place : Option Nat) : LdapEntries :=
  { entries with freed := entries.freed ++ place.toList.map (entries.search, ·) }

def close : LdapEntries :=
  { entries.ldap_memfree entries.statement.currentEntry with statement := entries.statement.close }

/-- `rc` and `found` are what `ldap_search_ext_s` returns. A result without entries is given back. -/
def do_execute (rc : Int) (found : Option Nat) : LdapEntries :=
  let closed := entries.close
  { closed with
    statement := (closed.statement.do_execute rc found).2
    found := closed.found ++ [found.getD 0] }

/-- The entry that the step is made from, the step, and the entry that is there now: the binders and
the trace read it. -/
def do_fetch : LdapEntries :=
  match entries.statement.result with
  | none => entries
  | some result =>
    let fetched := entries.statement.do_fetch.2
    match entries.statement.currentEntry with
    | none =>
      let first := if result = 0 then none else some 0
      { entries.read first with statement := fetched }.read fetched.currentEntry
    | some entry =>
      { (entries.read (some entry)).ldap_memfree (some entry) with statement := fetched }.read
        fetched.currentEntry

/-- A statement that is destroyed and made again has no result. -/
def destroy : LdapEntries := { entries.close with statement := ⟨none, none⟩ }

inductive Call where
  | execute (rc : Int) (found : Option Nat)
  | fetch
  | destroy
deriving DecidableEq, Repr

def step : Call → LdapEntries
  | .execute rc found => entries.do_execute rc found
  | .fetch => entries.do_fetch
  | .destroy => entries.destroy

/-- The result in hand, as long as the statement has one. -/
def InHand (search : Nat) : Prop := search = entries.search ∧ entries.statement.result.isSome = true

/-- No entry is read that was given back, and each entry of a search that is over was given back
once. -/
def Settled : Prop :=
  entries.dangling = [] ∧ ∀ search found entry, entries.found[search]? = some found → entry < found →
    ¬ entries.InHand search → entries.freed.count (search, entry) = 1

/-- So many entries of the result in hand have been left behind. -/
def Left (n : Nat) : Prop :=
  ∀ entry, entries.freed.count (entries.search, entry) = if entry < n then 1 else 0

/-- Whether the last fetch has missed. -/
def Missed : Prop :=
  entries.statement.currentEntry = none ∧
    ∃ result ∈ entries.statement.result, 0 < result ∧ entries.Left result

/-- The last entry has been fetched, if there is one. -/
def Through : Prop :=
  ∀ result ∈ entries.statement.result, 0 < result →
    entries.statement.currentEntry = some (result - 1) ∨ entries.Missed

def Ok : Call → Prop
  | .fetch => ¬ entries.Missed
  | _ => entries.Through

/-- Where the statement is in the result in hand. -/
def Stands : Prop :=
  (entries.statement.currentEntry = none ∧ entries.Left 0) ∨
    (∃ entry ∈ entries.statement.currentEntry, ∃ result ∈ entries.statement.result,
      entry < result ∧ entries.Left entry) ∨
    entries.Missed

structure Consistent (entries : LdapEntries) : Prop where
  result : ∀ result ∈ entries.statement.result, entries.found[entries.search]? = some result
  currentEntry : entries.statement.result = none → entries.statement.currentEntry = none
  freed : ∀ entry ∈ entries.freed, entry.1 < entries.found.length
  stands : entries.dangling = [] → entries.statement.result.isSome = true → entries.Stands

variable {entries : LdapEntries} {call : Call}

theorem consistent_instantiate : Consistent instantiate where
  result result h := by cases h
  currentEntry _ := rfl
  freed entry h := by cases h
  stands _ h := by cases h

theorem count_ldap_memfree (entries : LdapEntries) (place : Option Nat) (search entry : Nat) :
    (entries.ldap_memfree place).freed.count (search, entry) =
      entries.freed.count (search, entry) +
        if search = entries.search ∧ place = some entry then 1 else 0 := by
  rw [ldap_memfree, List.count_append]
  congr 1
  cases place with
  | none => simp
  | some other =>
    by_cases hsame : search = entries.search ∧ other = entry
    · obtain ⟨rfl, rfl⟩ := hsame
      simp
    · have hne : ¬ (entries.search, other) = (search, entry) := by
        rintro ⟨⟩
        exact hsame ⟨rfl, rfl⟩
      simp [hne]
      tauto

theorem do_execute_result (statement : LdapStatement) (rc : Int) (found : Option Nat) :
    (statement.do_execute rc found).2.currentEntry = none ∧
      ((statement.do_execute rc found).2.result = none → found.getD 0 = 0) ∧
      ∀ result ∈ (statement.do_execute rc found).2.result, found = some result := by
  unfold LdapStatement.do_execute LdapStatement.close
  dsimp only
  split
  · next hempty => exact ⟨rfl, fun _ => hempty.2, by simp⟩
  · refine ⟨rfl, ?_, fun _ h => h⟩
    rintro rfl
    rfl

theorem Consistent.lt_of_isSome (h : entries.Consistent)
    (hsome : entries.statement.result.isSome = true) : entries.search < entries.found.length := by
  obtain ⟨result, hresult⟩ := Option.isSome_iff_exists.mp hsome
  exact (List.getElem?_eq_some_iff.mp (h.result result hresult)).1

/-- A close gives back what the statement stands at. -/
theorem settled_close_iff (h : entries.Consistent) (hdangling : entries.dangling = []) :
    (∀ search found entry, entries.found[search]? = some found → entry < found →
        entries.close.freed.count (search, entry) = 1) ↔
      entries.Settled ∧ entries.Through := by
  have hcount := count_ldap_memfree entries entries.statement.currentEntry
  constructor
  · intro hall
    refine ⟨⟨hdangling, fun search found entry hfound hlt hhand => ?_⟩, fun result hresult hpos => ?_⟩
    · have hone := hall search found entry hfound hlt
      rw [close, hcount] at hone
      rw [← hone, if_neg, Nat.add_zero]
      rintro ⟨rfl, hcurrent⟩
      refine hhand ⟨rfl, ?_⟩
      by_contra hnone
      rw [h.currentEntry (Option.not_isSome_iff_eq_none.mp hnone)] at hcurrent
      cases hcurrent
    · have hlast := hall entries.search result (result - 1) (h.result result hresult) (by omega)
      rw [close, hcount] at hlast
      rcases h.stands hdangling (Option.isSome_of_mem hresult) with
        ⟨hcurrent, hleft⟩ | ⟨entry, hcurrent, other, hother, hlt, hleft⟩ | hmissed
      · rw [hleft, hcurrent] at hlast
        simp at hlast
      · obtain rfl := Option.mem_unique hother hresult
        left
        rw [hleft, if_neg (by omega), Nat.zero_add] at hlast
        by_contra hne
        rw [if_neg fun hand => hne hand.2] at hlast
        cases hlast
      · exact .inr hmissed
  · rintro ⟨⟨-, hall⟩, hthrough⟩ search found entry hfound hlt
    rw [close, hcount]
    by_cases hhand : entries.InHand search
    · obtain ⟨rfl, hsome⟩ := hhand
      obtain ⟨result, hresult⟩ := Option.isSome_iff_exists.mp hsome
      obtain rfl : result = found := Option.some.inj ((h.result result hresult).symm.trans hfound)
      rcases hthrough result hresult (by omega) with hcurrent | ⟨hcurrent, other, hother, -, hleft⟩
      · rcases h.stands hdangling hsome with
          ⟨hnone, -⟩ | ⟨last, hlast, other, hother, -, hleft⟩ | ⟨hnone, -⟩
        · rw [hnone] at hcurrent
          cases hcurrent
        · obtain rfl := Option.mem_unique hlast hcurrent
          rw [hleft, hcurrent]
          by_cases hentry : entry < result - 1
          · rw [if_pos hentry, if_neg (by simp; omega)]
          · rw [if_neg hentry, if_pos ⟨rfl, congrArg some (by omega)⟩]
        · rw [hnone] at hcurrent
          cases hcurrent
      · obtain rfl := Option.mem_unique hother hresult
        rw [hleft, hcurrent, if_pos hlt]
        simp
    · rw [hall search found entry hfound hlt hhand, if_neg]
      rintro ⟨rfl, hcurrent⟩
      refine hhand ⟨rfl, ?_⟩
      by_contra hnone
      rw [h.currentEntry (Option.not_isSome_iff_eq_none.mp hnone)] at hcurrent
      cases hcurrent

/-! ## A fetch -/

theorem dangling_read_iff {place : Option Nat} : (entries.read place).dangling = [] ↔
    entries.dangling = [] ∧ ∀ entry ∈ place, (entries.search, entry) ∉ entries.freed := by
  cases place with
  | none => simp [read]
  | some entry => simp [read, List.filter_eq_nil_iff]

theorem do_fetch_of_none (h : entries.statement.result = none) : entries.do_fetch = entries := by
  rw [do_fetch, h]

/-- What a fetch with a result in hand does. -/
structure Fetches (entries after : LdapEntries) (result : Nat) : Prop where
  found : after.found = entries.found
  result : after.statement.result = some result
  freed : ∀ entry ∈ after.freed, entry ∈ entries.freed ∨ entry.1 = entries.search
  count : ∀ search entry, search ≠ entries.search →
    after.freed.count (search, entry) = entries.freed.count (search, entry)
  dangling : after.dangling = [] ↔ entries.dangling = [] ∧ ¬ entries.Missed
  stands : after.dangling = [] → after.Stands

theorem not_mem_freed {n entry : Nat} (h : entries.Left n) (hle : n ≤ entry) :
    (entries.search, entry) ∉ entries.freed := by
  rw [← List.count_eq_zero, h, if_neg (Nat.not_lt.mpr hle)]

theorem mem_freed {n entry : Nat} (h : entries.Left n) (hlt : entry < n) :
    (entries.search, entry) ∈ entries.freed := by
  rw [← List.count_pos_iff, h, if_pos hlt]
  exact Nat.zero_lt_one

theorem do_fetch_first {result : Nat} (hresult : entries.statement.result = some result)
    (hcurrent : entries.statement.currentEntry = none)
    (hstands : entries.dangling = [] → entries.Stands) :
    Fetches entries entries.do_fetch result := by
  have hfetched : entries.statement.do_fetch.2 =
      ⟨some result, LdapStatement.ldap_first_entry result⟩ := by
    simp [LdapStatement.do_fetch, hresult, hcurrent]
  have hfetch : entries.do_fetch = { entries.read (if result = 0 then none else some 0) with
      statement := ⟨some result, LdapStatement.ldap_first_entry result⟩ }.read
        (LdapStatement.ldap_first_entry result) := by
    simp only [do_fetch, hresult, hcurrent, hfetched]
  have hcases : entries.dangling = [] → entries.Left 0 ∧ ¬ entries.Missed ∨
      0 < result ∧ (entries.search, 0) ∈ entries.freed ∧ entries.Missed := by
    intro hnil
    rcases hstands hnil with ⟨-, hleft⟩ | ⟨entry, hentry, -⟩ | hmissed
    · refine .inl ⟨hleft, ?_⟩
      rintro ⟨-, other, hother, hpos, hleft'⟩
      exact not_mem_freed hleft (Nat.le_refl 0) (mem_freed hleft' hpos)
    · rw [hcurrent] at hentry
      cases hentry
    · obtain ⟨-, other, hother, hpos, hleft⟩ := id hmissed
      obtain rfl := Option.some.inj (hresult.symm.trans hother)
      exact .inr ⟨hpos, mem_freed hleft hpos, hmissed⟩
  have hdangling : entries.do_fetch.dangling = [] ↔ entries.dangling = [] ∧ ¬ entries.Missed := by
    have hreads : entries.do_fetch.dangling = [] ↔
        entries.dangling = [] ∧ (0 < result → (entries.search, 0) ∉ entries.freed) := by
      rw [hfetch, dangling_read_iff]
      rcases Nat.eq_zero_or_pos result with rfl | hpos
      · simp [LdapStatement.ldap_first_entry, read]
      · rw [if_neg (Nat.pos_iff_ne_zero.mp hpos), LdapStatement.ldap_first_entry, if_pos hpos]
        exact ⟨fun h => ⟨(dangling_read_iff.mp h.1).1, fun _ => h.2 0 rfl⟩, fun h =>
          ⟨dangling_read_iff.mpr ⟨h.1, by rintro _ ⟨⟩; exact h.2 hpos⟩, by rintro _ ⟨⟩; exact h.2 hpos⟩⟩
    rw [hreads]
    refine and_congr_right fun hnil => ?_
    rcases hcases hnil with ⟨hleft, hnot⟩ | ⟨hpos, hmem, hmissed⟩
    · exact iff_of_true (fun _ => not_mem_freed hleft (Nat.le_refl 0)) hnot
    · exact iff_of_false (fun h => h hpos hmem) (not_not_intro hmissed)
  refine ⟨by rw [hfetch]; rfl, by rw [hfetch]; rfl, fun entry h => .inl ?_, fun _ _ _ => ?_, hdangling,
    fun hnil => ?_⟩
  · rw [hfetch] at h
    exact h
  · rw [hfetch]
    rfl
  · obtain ⟨hnil, hnot⟩ := hdangling.mp hnil
    obtain ⟨hleft, -⟩ := (hcases hnil).resolve_right fun h => hnot h.2.2
    rw [hfetch]
    rcases Nat.eq_zero_or_pos result with rfl | hpos
    · exact .inl ⟨rfl, hleft⟩
    · exact .inr (.inl
        ⟨0, by simp [read, LdapStatement.ldap_first_entry, hpos], result, rfl, hpos, hleft⟩)

theorem do_fetch_next {result entry : Nat} (hresult : entries.statement.result = some result)
    (hcurrent : entries.statement.currentEntry = some entry)
    (hstands : entries.dangling = [] → entries.Stands) :
    Fetches entries entries.do_fetch result := by
  have hfetched : entries.statement.do_fetch.2 =
      ⟨some result, LdapStatement.ldap_next_entry result entry⟩ := by
    simp [LdapStatement.do_fetch, hresult, hcurrent]
  have hfetch : entries.do_fetch = { (entries.read (some entry)).ldap_memfree (some entry) with
      statement := ⟨some result, LdapStatement.ldap_next_entry result entry⟩ }.read
        (LdapStatement.ldap_next_entry result entry) := by
    simp only [do_fetch, hresult, hcurrent, hfetched]
  have hfreed : entries.do_fetch.freed = entries.freed ++ [(entries.search, entry)] := by
    rw [hfetch]
    rfl
  have hmissed : ¬ entries.Missed := by
    rintro ⟨hnone, -⟩
    rw [hnone] at hcurrent
    cases hcurrent
  have hleft : entries.dangling = [] → entry < result ∧ entries.Left entry := by
    intro hnil
    rcases hstands hnil with ⟨hnone, -⟩ | ⟨other, hother, number, hnumber, hlt, hleft⟩ | hmiss
    · rw [hnone] at hcurrent
      cases hcurrent
    · obtain rfl := Option.mem_unique hother hcurrent
      obtain rfl := Option.mem_unique hnumber hresult
      exact ⟨hlt, hleft⟩
    · exact absurd hmiss hmissed
  have hnext : entries.dangling = [] → entries.do_fetch.Left (entry + 1) := by
    intro hnil other
    have hcount := (hleft hnil).2 other
    have hsearch : entries.do_fetch.search = entries.search := by
      rw [hfetch]
      rfl
    have hlast : [(entries.search, entry)].count (entries.search, other) =
        if entry = other then 1 else 0 := by
      by_cases heq : entry = other <;> simp [heq]
    rw [hsearch, hfreed, List.count_append, hcount, hlast]
    split_ifs <;> omega
  have hdangling : entries.do_fetch.dangling = [] ↔ entries.dangling = [] ∧ ¬ entries.Missed := by
    constructor
    · intro hnil
      rw [hfetch, dangling_read_iff] at hnil
      exact ⟨(dangling_read_iff.mp hnil.1).1, hmissed⟩
    · rintro ⟨hnil, -⟩
      have hstill : (entries.read (some entry)).dangling = [] :=
        dangling_read_iff.mpr ⟨hnil, by rintro _ ⟨⟩; exact not_mem_freed (hleft hnil).2 (Nat.le_refl _)⟩
      rw [hfetch, dangling_read_iff]
      refine ⟨hstill, fun other hother => ?_⟩
      have hlater : entry + 1 ≤ other := by
        rw [LdapStatement.ldap_next_entry] at hother
        exact (Option.some.inj (Option.ite_none_right_eq_some.mp hother).2).le
      have hnot := not_mem_freed (hnext hnil) hlater
      rw [hfetch] at hnot
      exact hnot
  refine ⟨by rw [hfetch]; rfl, by rw [hfetch]; rfl, fun other h => ?_, fun search other hne => ?_,
    hdangling, fun hnil => ?_⟩
  · rw [hfreed] at h
    exact (List.mem_append.mp h).imp_right fun h => congrArg Prod.fst (List.mem_singleton.mp h)
  · have hother : ¬ (entries.search, entry) = (search, other) := by
      rintro ⟨⟩
      exact hne rfl
    rw [hfreed, List.count_append, List.count_singleton]
    simp [hother]
  · obtain ⟨hnil, -⟩ := hdangling.mp hnil
    have hleft' := hnext hnil
    have hresult' : entries.do_fetch.statement.result = some result := by
      rw [hfetch]
      rfl
    have hcurrent' : entries.do_fetch.statement.currentEntry =
        LdapStatement.ldap_next_entry result entry := by
      rw [hfetch]
      rfl
    have hlt := (hleft hnil).1
    by_cases hmore : entry + 1 < result
    · rw [LdapStatement.ldap_next_entry, if_pos hmore] at hcurrent'
      exact .inr (.inl ⟨entry + 1, hcurrent', result, hresult', hmore, hleft'⟩)
    · rw [LdapStatement.ldap_next_entry, if_neg hmore] at hcurrent'
      obtain rfl : result = entry + 1 := by omega
      exact .inr (.inr ⟨hcurrent', _, hresult', Nat.succ_pos _, hleft'⟩)

theorem Consistent.fetches (h : entries.Consistent) {result : Nat}
    (hresult : entries.statement.result = some result) : Fetches entries entries.do_fetch result := by
  have hstands : entries.dangling = [] → entries.Stands :=
    fun hnil => h.stands hnil (Option.isSome_of_mem hresult)
  cases hcurrent : entries.statement.currentEntry with
  | none => exact do_fetch_first hresult hcurrent hstands
  | some entry => exact do_fetch_next hresult hcurrent hstands

/-! ## Runs -/

theorem left_fresh (h : ∀ entry ∈ entries.freed, entry.1 < entries.search) : entries.Left 0 := by
  intro entry
  rw [if_neg (Nat.not_lt_zero entry), List.count_eq_zero]
  exact fun hmem => Nat.lt_irrefl _ (h _ hmem)

theorem mem_freed_close (h : entries.Consistent) :
    ∀ entry ∈ entries.close.freed, entry.1 < entries.found.length := by
  intro entry hmem
  rw [close, ldap_memfree] at hmem
  rcases List.mem_append.mp hmem with hmem | hmem
  · exact h.freed entry hmem
  · obtain ⟨place, hplace, rfl⟩ := List.mem_map.mp hmem
    refine h.lt_of_isSome ?_
    by_contra hnone
    rw [h.currentEntry (Option.not_isSome_iff_eq_none.mp hnone)] at hplace
    cases hplace

theorem consistent_step (h : entries.Consistent) : (entries.step call).Consistent := by
  cases call with
  | execute rc found =>
    obtain ⟨hcurrent, -, hfound⟩ := do_execute_result entries.close.statement rc found
    have hsearch : (entries.do_execute rc found).search = entries.found.length := by
      simp [search, do_execute, close, ldap_memfree]
    refine ⟨fun result hresult => ?_, fun _ => hcurrent, fun entry hmem => ?_, fun _ _ => ?_⟩
    · rw [step, hsearch]
      have heq := hfound result hresult
      simp [do_execute, close, ldap_memfree, heq]
    · have hlt := mem_freed_close h entry hmem
      simp only [step, do_execute, close, ldap_memfree, List.length_append, List.length_singleton]
      omega
    · refine .inl ⟨hcurrent, left_fresh fun entry hmem => ?_⟩
      rw [step, hsearch]
      exact mem_freed_close h entry hmem
  | fetch =>
    rw [step]
    cases hresult : entries.statement.result with
    | none =>
      rw [do_fetch_of_none hresult]
      exact h
    | some result =>
      have hfetches := h.fetches hresult
      have hsearch : entries.do_fetch.search = entries.search := by rw [search, hfetches.found, search]
      refine ⟨fun other hother => ?_, fun hnone => ?_, fun entry hmem => ?_,
        fun hnil _ => hfetches.stands hnil⟩
      · rw [hfetches.result] at hother
        cases hother
        rw [hfetches.found, hsearch]
        exact h.result _ hresult
      · rw [hfetches.result] at hnone
        cases hnone
      · rw [hfetches.found]
        rcases hfetches.freed entry hmem with hmem | heq
        · exact h.freed entry hmem
        · rw [heq]
          exact h.lt_of_isSome (Option.isSome_of_mem hresult)
  | destroy =>
    refine ⟨fun result hresult => ?_, fun _ => rfl, mem_freed_close h, fun _ hsome => ?_⟩
    · cases hresult
    · cases hsome

theorem settled_fetch_iff (h : entries.Consistent) :
    entries.do_fetch.Settled ↔ entries.Settled ∧ ¬ entries.Missed := by
  cases hresult : entries.statement.result with
  | none =>
    have hmissed : ¬ entries.Missed := by
      rintro ⟨-, result, hmem, -⟩
      rw [hresult] at hmem
      cases hmem
    rw [do_fetch_of_none hresult, and_iff_left hmissed]
  | some result =>
    have hfetches := h.fetches hresult
    have hhand : ∀ search, entries.do_fetch.InHand search ↔ search = entries.search := by
      intro search
      rw [InHand, LdapEntries.search, hfetches.found, hfetches.result]
      exact and_iff_left rfl
    have hhand' : ∀ search, entries.InHand search ↔ search = entries.search := by
      intro search
      rw [InHand, hresult]
      exact and_iff_left rfl
    rw [Settled, Settled, hfetches.dangling, hfetches.found, and_assoc, and_right_comm, and_assoc]
    refine and_congr_right fun _ => and_congr_right fun _ => ?_
    refine forall₅_congr fun search found entry hfound hlt => ?_
    rw [hhand, hhand']
    refine forall_congr' fun hne => ?_
    rw [hfetches.count search entry hne]

theorem settled_close_step (h : entries.Consistent) {after : LdapEntries} {more : List Nat}
    (hdangling : after.dangling = entries.dangling) (hfound : after.found = entries.found ++ more)
    (hfreed : after.freed = entries.close.freed)
    (hover : ∀ search < entries.found.length, ¬ after.InHand search)
    (hmore : ∀ search found, more[search]? = some found →
      ¬ after.InHand (entries.found.length + search) → found = 0) :
    after.Settled ↔ entries.Settled ∧ entries.Through := by
  by_cases hnil : entries.dangling = []
  · rw [← settled_close_iff h hnil, Settled, hdangling, hfreed, hfound]
    rw [and_iff_right hnil]
    constructor
    · intro hall search found entry hsearch hlt
      have hbound := (List.getElem?_eq_some_iff.mp hsearch).1
      refine hall search found entry ?_ hlt (hover search hbound)
      rw [List.getElem?_append_left hbound]
      exact hsearch
    · intro hall search found entry hsearch hlt hhand
      by_cases hbound : search < entries.found.length
      · rw [List.getElem?_append_left hbound] at hsearch
        exact hall search found entry hsearch hlt
      · rw [List.getElem?_append_right (Nat.not_lt.mp hbound)] at hsearch
        have hsplit : entries.found.length + (search - entries.found.length) = search := by omega
        rw [hmore _ found hsearch (by rwa [hsplit])] at hlt
        exact absurd hlt (Nat.not_lt_zero entry)
  · exact iff_of_false (fun hsettled => hnil (hdangling ▸ hsettled.1)) fun hboth => hnil hboth.1.1

theorem settled_step_iff (h : entries.Consistent) :
    (entries.step call).Settled ↔ entries.Settled ∧ entries.Ok call := by
  cases call with
  | execute rc found =>
    obtain ⟨-, hnone, -⟩ := do_execute_result entries.close.statement rc found
    refine settled_close_step h rfl rfl rfl (fun search hlt hhand => ?_)
      fun search number hmore hhand => ?_
    · have heq := hhand.1
      simp [step, LdapEntries.search, do_execute, close, ldap_memfree] at heq
      omega
    · cases search with
      | zero =>
        cases hmore
        refine hnone (Option.not_isSome_iff_eq_none.mp fun hsome => hhand ⟨?_, hsome⟩)
        simp [step, LdapEntries.search, do_execute, close, ldap_memfree]
      | succ search => cases hmore
  | fetch => exact settled_fetch_iff h
  | destroy =>
    refine settled_close_step h rfl (List.append_nil _).symm rfl (fun search _ hhand => ?_)
      fun search number hmore => by cases hmore
    cases hhand.2

/-- Each entry of a search that is over has been given back once, and none has been read behind that,
just when every result was fetched through its last entry, and once more at best. -/
theorem settled_iff_through (calls : List Call) :
    (run step instantiate calls).Settled ↔ Meets step Ok instantiate calls := by
  refine @holds_iff_meets_of_invariant _ _ step Ok instantiate Consistent Settled
    (fun _ _ h => consistent_step h) (fun _ _ h => settled_step_iff h) consistent_instantiate ?_ calls
  exact ⟨rfl, fun search found entry hfound => by cases hfound⟩

/-- A search with one entry, and three fetches: the last one reads the entry again. -/
example : (run step instantiate [.execute LDAP_SUCCESS (some 1), .fetch, .fetch, .fetch]).dangling =
    [(0, 0), (0, 0)] := by decide

end LdapEntries

end Coffee.Dbms
