import Coffee.Balance.Fairness

/-! # Balancing by an index

The identifier of a request is an `int`, and the size of the list a `size_t`: before the remainder
is taken the identifier is converted to `size_t`, which sends the negative ones to the end of its
range.
-/

namespace Coffee.Balance

open Coffee.Basis Coffee.Library Coffee.Library.Rotation

structure StrategyIndexed where
  m_resources : ResourceList
deriving Repr

namespace StrategyIndexed

def asString (isAvailable : Resource → Bool) (strategy : StrategyIndexed) : Bytes :=
  text "balance.Strategy \x7b " ++ NamedObject.asString (text "balance::Indexed") ++ text "|" ++
    strategy.m_resources.asString isAvailable ++ text " \x7d"

/-- `identifier % size`, where the `int` becomes a `size_t` first. -/
def slot (identifier : Int32) (size : Nat) : Nat := (identifier.toInt % 2 ^ 64).toNat % size

/-- `none` is the dereference of an iterator that denotes nothing. -/
def apply (isAvailable : Resource → Bool) (strategy : StrategyIndexed) (identifier : Int32) :
    Option (Except ResourceUnavailableException Resource) :=
  let list := strategy.m_resources
  let size := list.m_resources.elements.length
  if size = 0 then some (.error ⟨list.m_name ++ text " is empty"⟩)
  else do
    let first := { list.m_resources.first with index := slot identifier size }
    let found ← StrategyRoundRobin.search isAvailable list first size first
    match found with
    | some (w, _) => return .ok w
    | none =>
      return .error ⟨strategy.asString isAvailable ++ text " there is not any available resource"⟩

def Consecutive (identifiers : List Int32) : Prop :=
  identifiers.IsChain fun identifier following => following.toInt = identifier.toInt + 1

instance (identifiers : List Int32) : Decidable (Consecutive identifiers) :=
  inferInstanceAs (Decidable (List.IsChain _ _))

variable {strategy : StrategyIndexed} {identifiers : List Int32}

theorem apply_spec (isAvailable : Resource → Bool) (strategy : StrategyIndexed) (identifier : Int32) :
    ∃ result, strategy.apply isAvailable identifier = some result ∧
      result.toOption = pick isAvailable strategy.m_resources.m_resources.elements
        (slot identifier strategy.m_resources.m_resources.elements.length) := by
  unfold apply
  dsimp only
  split
  · rename_i hempty
    refine ⟨_, rfl, ?_⟩
    rw [List.length_eq_zero_iff.mp hempty]
    rfl
  · rename_i hsize
    have hdenotes : strategy.m_resources.m_resources.Denotes
        { strategy.m_resources.m_resources.first with
          index := slot identifier strategy.m_resources.m_resources.elements.length } :=
      ⟨rfl, Nat.mod_lt _ (Nat.pos_of_ne_zero hsize)⟩
    obtain ⟨found, hfound, hpick, -⟩ := StrategyRoundRobin.search_eq isAvailable hdenotes
    rw [hfound]
    cases found with
    | none => exact ⟨_, rfl, hpick⟩
    | some found => exact ⟨_, rfl, hpick⟩

def picked (isAvailable : Resource → Bool) (strategy : StrategyIndexed)
    (identifiers : List Int32) : List (Option Resource) :=
  identifiers.map fun identifier => (strategy.apply isAvailable identifier).bind Except.toOption

theorem picked_of_forall {isAvailable : Resource → Bool}
    (hall : ∀ w ∈ strategy.m_resources.m_resources.elements, isAvailable w = true)
    (hne : strategy.m_resources.m_resources.elements ≠ []) (identifiers : List Int32) :
    strategy.picked isAvailable identifiers = identifiers.map fun identifier =>
      strategy.m_resources.m_resources.elements[
        slot identifier strategy.m_resources.m_resources.elements.length]? := by
  refine List.map_congr_left fun identifier _ => ?_
  obtain ⟨result, happly, hresult⟩ := apply_spec isAvailable strategy identifier
  rw [happly, Option.bind_some, hresult, pick_of_forall hall hne, slot, Nat.mod_mod]

theorem Consecutive.toInt_eq {first : Int32} (h : Consecutive (first :: identifiers)) {k : Nat}
    {identifier : Int32} (hk : (first :: identifiers)[k]? = some identifier) :
    identifier.toInt = first.toInt + k := by
  induction k generalizing first identifiers with
  | zero =>
    cases hk
    simp
  | succ k ih =>
    cases identifiers with
    | nil => simp at hk
    | cons following rest =>
      obtain ⟨hnext, hrest⟩ := List.isChain_cons_cons.mp h
      have hfollowing := ih hrest (by simpa using hk)
      rw [hfollowing, hnext]
      omega

/-- The slots follow each other as well, where the identifiers do not cross zero or the size divides
the range of `size_t`. -/
theorem slot_add {first identifier : Int32} {k size : Nat}
    (hk : identifier.toInt = first.toInt + k)
    (h : 0 ≤ first.toInt ∨ identifier.toInt < 0 ∨ size ∣ 2 ^ 64) :
    slot identifier size = (slot first size + k) % size := by
  have hle := Int32.le_toInt first
  have hlt := Int32.toInt_lt first
  have hle' := Int32.le_toInt identifier
  have hlt' := Int32.toInt_lt identifier
  unfold slot
  rw [Nat.mod_add_mod]
  rcases h with hnonneg | hneg | ⟨c, hc⟩
  · congr 1
    omega
  · congr 1
    omega
  · have hdvd : (size : Int) ∣ 2 ^ 64 := ⟨c, by rw [← Int.natCast_mul, ← hc]; rfl⟩
    apply Int.natCast_inj.mp
    rw [Int.natCast_emod, Int.natCast_emod, Int.natCast_add,
      Int.toNat_of_nonneg (Int.emod_nonneg _ (by decide)),
      Int.toNat_of_nonneg (Int.emod_nonneg _ (by decide)), Int.emod_emod_of_dvd _ hdvd, Int.add_emod,
      Int.emod_emod_of_dvd _ hdvd, ← Int.add_emod, hk]

/-- The requests of a stretch of identifiers get each resource once where the stretch does not cross
zero or the size divides the range of `size_t`. -/
theorem count_of_noWrap {xs : List Resource} (hnodup : xs.Nodup) {first : Int32}
    (hids : Consecutive (first :: identifiers)) (hlength : (first :: identifiers).length = xs.length)
    (h : (∀ identifier ∈ first :: identifiers, 0 ≤ identifier.toInt) ∨
      (∀ identifier ∈ first :: identifiers, identifier.toInt < 0) ∨ xs.length ∣ 2 ^ 64)
    {w : Resource} (hw : w ∈ xs) :
    ((first :: identifiers).map fun identifier => xs[slot identifier xs.length]?).count (some w) =
      1 := by
  have hturn : ((first :: identifiers).map fun identifier => xs[slot identifier xs.length]?) =
      (List.range (1 * xs.length)).map fun k => xs[(slot first xs.length + k) % xs.length]? := by
    refine List.ext_getElem? fun k => ?_
    rw [List.getElem?_map, List.getElem?_map, Nat.one_mul, ← hlength]
    cases hk : (first :: identifiers)[k]? with
    | none =>
      have hle := List.getElem?_eq_none_iff.mp hk
      rw [List.getElem?_eq_none (by simpa using hle)]
      rfl
    | some identifier =>
      obtain ⟨hlt, -⟩ := List.getElem?_eq_some_iff.mp hk
      have hmem := List.mem_of_getElem? hk
      have hsame : 0 ≤ first.toInt ∨ identifier.toInt < 0 ∨ xs.length ∣ 2 ^ 64 := by
        rcases h with hall | hall | hdvd
        · exact .inl (hall first List.mem_cons_self)
        · exact .inr (.inl (hall identifier hmem))
        · exact .inr (.inr hdvd)
      rw [List.getElem?_range hlt, Option.map_some, Option.map_some, hlength,
        slot_add (hids.toInt_eq hk) hsame]
  rw [hturn]
  exact count_turns hnodup _ 1 hw

theorem slot_of_nonneg {identifier : Int32} {k : Nat} (h : identifier.toInt = k) (size : Nat) :
    slot identifier size = k % size := by
  have hlt := Int32.toInt_lt identifier
  rw [slot]
  congr 1
  omega

theorem slot_of_neg {identifier : Int32} {j : Nat} (h : identifier.toInt = -j) (hj : 0 < j)
    (size : Nat) : slot identifier size = (2 ^ 64 - j) % size := by
  have hle := Int32.le_toInt identifier
  rw [slot]
  congr 1
  omega

theorem getElem?_slots {xs : List Resource} {k : Nat} {identifier : Int32}
    (hk : identifiers[k]? = some identifier) :
    (identifiers.map fun identifier => xs[slot identifier xs.length]?)[k]? =
      some xs[slot identifier xs.length]? := by
  rw [List.getElem?_map, hk]
  rfl

theorem nodup_slots {xs : List Resource} (hpos : 0 < xs.length)
    (huniform : ∀ w ∈ xs, (identifiers.map fun identifier =>
      xs[slot identifier xs.length]?).count (some w) = 1) :
    (identifiers.map fun identifier => xs[slot identifier xs.length]?).Nodup := by
  refine List.nodup_iff_count_le_one.mpr fun picked => ?_
  cases picked with
  | none =>
    refine Nat.le_trans (Nat.le_of_eq (List.count_eq_zero.mpr fun hmem => ?_)) (Nat.zero_le 1)
    obtain ⟨identifier, -, hnone⟩ := List.mem_map.mp hmem
    have hlt : slot identifier xs.length < xs.length := Nat.mod_lt _ hpos
    rw [List.getElem?_eq_getElem hlt] at hnone
    cases hnone
  | some w =>
    by_cases hw : w ∈ xs
    · exact Nat.le_of_eq (huniform w hw)
    · refine Nat.le_trans (Nat.le_of_eq (List.count_eq_zero.mpr fun hmem => ?_)) (Nat.zero_le 1)
      obtain ⟨identifier, -, hsome⟩ := List.mem_map.mp hmem
      exact hw (List.mem_of_getElem? hsome)

theorem exists_last_slot {xs : List Resource} (hnodup : xs.Nodup) (hpos : 0 < xs.length)
    (huniform : ∀ w ∈ xs, (identifiers.map fun identifier =>
      xs[slot identifier xs.length]?).count (some w) = 1) :
    ∃ (k : Nat) (identifier : Int32), identifiers[k]? = some identifier ∧
      slot identifier xs.length = xs.length - 1 := by
  have hlt : xs.length - 1 < xs.length := by omega
  have hcount := huniform xs[xs.length - 1] (List.getElem_mem hlt)
  have hmem := List.count_pos_iff.mp (Nat.lt_of_lt_of_eq Nat.zero_lt_one hcount.symm)
  obtain ⟨identifier, hidentifier, hsome⟩ := List.mem_map.mp hmem
  obtain ⟨k, hk⟩ := List.mem_iff_getElem?.mp hidentifier
  refine ⟨k, identifier, hk, ?_⟩
  rw [← List.getElem?_eq_getElem hlt] at hsome
  exact (List.getElem?_inj (Nat.mod_lt _ hpos) hnodup).mp hsome

/-- A stretch that crosses zero either hits the first slot twice or misses the last one, unless the
size divides the range of `size_t`. -/
theorem not_uniform_of_wrap {xs : List Resource} (hnodup : xs.Nodup) {first : Int32}
    (hids : Consecutive (first :: identifiers)) (hlength : (first :: identifiers).length = xs.length)
    (hneg : first.toInt < 0) {last : Int32} (hlast : last ∈ first :: identifiers)
    (hnonneg : 0 ≤ last.toInt) (hdvd : ¬ xs.length ∣ 2 ^ 64) :
    ¬ ∀ w ∈ xs, ((first :: identifiers).map fun identifier =>
      xs[slot identifier xs.length]?).count (some w) = 1 := by
  intro huniform
  obtain ⟨a, ha⟩ : ∃ a : Nat, first.toInt = -a := ⟨(-first.toInt).toNat, by omega⟩
  have hbound := Int32.le_toInt first
  have hr : 0 < 2 ^ 64 % xs.length := Nat.emod_pos_of_not_dvd hdvd
  have hdivision := Nat.div_add_mod (2 ^ 64) xs.length
  have hat : ∀ k < xs.length, ∃ identifier, (first :: identifiers)[k]? = some identifier ∧
      identifier.toInt = first.toInt + k := by
    intro k hk
    have hsome := List.getElem?_eq_getElem (hlength ▸ hk)
    exact ⟨_, hsome, hids.toInt_eq hsome⟩
  have hinside : a < xs.length := by
    obtain ⟨k, hk⟩ := List.mem_iff_getElem?.mp hlast
    have hvalue := hids.toInt_eq hk
    obtain ⟨hlt, -⟩ := List.getElem?_eq_some_iff.mp hk
    omega
  have hpos : 0 < xs.length := Nat.zero_lt_of_lt hinside
  have hmod := Nat.mod_lt (2 ^ 64) hpos
  by_cases hhit : 2 ^ 64 % xs.length ≤ a
  · -- the identifier behind zero by the remainder, and zero itself
    obtain ⟨zero, hzero, hzero'⟩ := hat a hinside
    obtain ⟨before, hbefore, hbefore'⟩ := hat (a - 2 ^ 64 % xs.length) (by omega)
    have hslot : slot zero xs.length = 0 := by
      rw [slot_of_nonneg (k := 0) (by omega), Nat.zero_mod]
    have hslot' : slot before xs.length = 0 := by
      rw [slot_of_neg (j := 2 ^ 64 % xs.length) (by omega) hr]
      exact Nat.mod_eq_zero_of_dvd (Nat.dvd_sub_mod (2 ^ 64))
    have hsame : a = a - 2 ^ 64 % xs.length := by
      refine (List.getElem?_inj ?_ (nodup_slots hpos huniform)).mp ?_
      · rw [List.length_map, hlength]
        exact hinside
      · rw [getElem?_slots hzero, getElem?_slots hbefore, hslot, hslot']
    omega
  · -- the last slot
    obtain ⟨k, identifier, hk, hslot⟩ := exists_last_slot hnodup hpos huniform
    have hvalue := hids.toInt_eq hk
    obtain ⟨hklt, -⟩ := List.getElem?_eq_some_iff.mp hk
    by_cases hsign : k < a
    · rw [slot_of_neg (j := a - k) (by omega) (by omega)] at hslot
      have hexact : 2 ^ 64 - (a - k) =
          xs.length * (2 ^ 64 / xs.length) + (2 ^ 64 % xs.length - (a - k)) := by omega
      rw [hexact, Nat.mul_add_mod, Nat.mod_eq_of_lt (by omega)] at hslot
      omega
    · rw [slot_of_nonneg (k := k - a) (by omega), Nat.mod_eq_of_lt (by omega)] at hslot
      omega

/-- A stretch of as many identifiers as there are resources gets each of them once, whatever is said
of the resources being available, just when it does not cross zero or the number of resources
divides 2^64. Each request gets the first available resource from its slot on, and throws just when
there is none. -/
theorem picked_uniform_iff (grow : Nat → Nat) (name : Bytes)
    (adds : List ((Resource → Bool) × Option Resource)) {identifiers : List Int32}
    (hids : Consecutive identifiers)
    (hlength : identifiers.length = (ResourceList.filled grow name adds).m_resources.elements.length) :
    (∀ isAvailable identifier, ∃ result,
        apply isAvailable ⟨ResourceList.filled grow name adds⟩ identifier = some result ∧
        result.toOption = pick isAvailable (ResourceList.filled grow name adds).m_resources.elements
          (slot identifier (ResourceList.filled grow name adds).m_resources.elements.length) ∧
        (result.toOption = none ↔ ∀ w ∈ (ResourceList.filled grow name adds).m_resources.elements,
          isAvailable w = false)) ∧
      ((∀ isAvailable, (∀ w ∈ (ResourceList.filled grow name adds).m_resources.elements,
          isAvailable w = true) →
          ∀ w ∈ (ResourceList.filled grow name adds).m_resources.elements,
            (picked isAvailable ⟨ResourceList.filled grow name adds⟩ identifiers).count (some w) =
              1) ↔
        (∀ identifier ∈ identifiers, 0 ≤ identifier.toInt) ∨
          (∀ identifier ∈ identifiers, identifier.toInt < 0) ∨
          (ResourceList.filled grow name adds).m_resources.elements.length ∣ 2 ^ 64) := by
  have hnodup := ResourceList.nodup_filled grow name adds
  generalize ResourceList.filled grow name adds = list at hnodup hlength
  constructor
  · intro isAvailable identifier
    obtain ⟨result, happly, hresult⟩ := apply_spec isAvailable ⟨list⟩ identifier
    refine ⟨result, happly, hresult, ?_⟩
    rw [hresult, pick_eq_none_iff]
  · cases identifiers with
    | nil =>
      have hempty := List.length_eq_zero_iff.mp hlength.symm
      simp [hempty]
    | cons first identifiers =>
      have hne : list.m_resources.elements ≠ [] := by
        rintro hempty
        simp [hempty] at hlength
      constructor
      · intro huniform
        by_contra hnot
        simp only [not_or, not_forall] at hnot
        obtain ⟨⟨negative, hnegative, hlt⟩, ⟨last, hlast, hnonneg⟩, hdvd⟩ := hnot
        have hfirst : first.toInt < 0 := by
          obtain ⟨k, hk⟩ := List.mem_iff_getElem?.mp hnegative
          have hvalue := hids.toInt_eq hk
          omega
        have hpicked := huniform (fun _ => true) fun _ _ => rfl
        rw [@picked_of_forall ⟨list⟩ _ (fun _ _ => rfl) hne] at hpicked
        exact not_uniform_of_wrap hnodup hids hlength hfirst hlast (by omega) hdvd hpicked
      · intro h isAvailable hall w hw
        rw [@picked_of_forall ⟨list⟩ _ hall hne]
        exact count_of_noWrap hnodup hids hlength h hw

theorem picked_uniform_iff_two :
    (∀ isAvailable identifier, ∃ result, apply isAvailable ⟨ResourceList.filled (2 * ·)
          (text "list") [(fun _ => true, some ⟨text "a"⟩), (fun _ => true, some ⟨text "b"⟩)]⟩
          identifier = some result ∧
        result.toOption = pick isAvailable [⟨text "a"⟩, ⟨text "b"⟩] (slot identifier 2) ∧
        (result.toOption = none ↔ ∀ w ∈ [(⟨text "a"⟩ : Resource), ⟨text "b"⟩],
          isAvailable w = false)) ∧
      ((∀ isAvailable, (∀ w ∈ [(⟨text "a"⟩ : Resource), ⟨text "b"⟩], isAvailable w = true) →
          ∀ w ∈ [(⟨text "a"⟩ : Resource), ⟨text "b"⟩], (picked isAvailable
            ⟨ResourceList.filled (2 * ·) (text "list") [(fun _ => true, some ⟨text "a"⟩),
              (fun _ => true, some ⟨text "b"⟩)]⟩ [-1, 0]).count (some w) = 1) ↔
        (∀ identifier ∈ [(-1 : Int32), 0], 0 ≤ identifier.toInt) ∨
          (∀ identifier ∈ [(-1 : Int32), 0], identifier.toInt < 0) ∨ 2 ∣ 2 ^ 64) :=
  picked_uniform_iff (2 * ·) (text "list")
    [(fun _ => true, some ⟨text "a"⟩), (fun _ => true, some ⟨text "b"⟩)] (by decide) (by decide)

/-- Of three resources the first one gets both -1 and 0, and the third one nothing. -/
theorem not_picked_uniform :
    ¬ ∀ (adds : List ((Resource → Bool) × Option Resource)) (identifiers : List Int32),
      Consecutive identifiers → identifiers.length =
          (ResourceList.filled (2 * ·) (text "list") adds).m_resources.elements.length →
        ∀ w ∈ (ResourceList.filled (2 * ·) (text "list") adds).m_resources.elements,
          (picked (fun _ => true) ⟨ResourceList.filled (2 * ·) (text "list") adds⟩
            identifiers).count (some w) = 1 := by
  intro h
  have hthird := h [(fun _ => true, some ⟨text "a"⟩), (fun _ => true, some ⟨text "b"⟩),
    (fun _ => true, some ⟨text "c"⟩)] [-1, 0, 1] (by decide) (by decide) ⟨text "c"⟩ (by decide)
  revert hthird
  decide +kernel

end StrategyIndexed

end Coffee.Balance
