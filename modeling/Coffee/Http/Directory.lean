import Coffee.Http.Message

/-! # The header directory of a message

The directory agrees with the header list: a name leads to the one header that has it. So setting
a header either adds a new last one or extends the value of the one that is there.
-/

namespace Coffee.Http.HttpMessage

open Coffee.Library Coffee.Basis

def keys (message : HttpMessage) : List Bytes :=
  message.m_sequentialHeaders.map (·.m_class.key)

structure Indexed (message : HttpMessage) : Prop where
  lookup : ∀ name, message.m_directory.lookup name = message.keys.idxOf? name
  nodup : message.keys.Nodup
  named : ∀ header ∈ message.m_sequentialHeaders, header.m_class ≠ .predefined .Custom

def joinValue (old value : Bytes) : Bytes := if old.isEmpty then value else old ++ text "," ++ value

theorem setValue_value (header : HttpHeader) (value : Bytes) :
    (header.setValue value).m_value = joinValue header.m_value value := by
  unfold HttpHeader.setValue joinValue
  split <;> rfl

def value? (message : HttpMessage) (name : Bytes) : Option Bytes :=
  ((message.m_directory.lookup name).bind fun dd => message.m_sequentialHeaders[dd]?).map (·.m_value)

theorem getCustomHeaderValue_eq_ok_iff {message : HttpMessage} {name value : Bytes} :
    message.getCustomHeaderValue name = .ok value ↔ message.value? name = some value := by
  unfold getCustomHeaderValue value?
  split
  · next header hheader => simp [hheader]
  · next hnone => simp [hnone]

theorem keys_modify (headers : List HttpHeader) (dd : Nat) (value : Bytes) :
    (headers.modify dd (·.setValue value)).map (·.m_class.key) = headers.map (·.m_class.key) := by
  rw [List.map_eq_iff]
  intro i
  rw [List.getElem?_map, List.getElem?_modify]
  cases headers[i]? with
  | none => rfl
  | some header => by_cases h : dd = i <;> simp [h]

theorem idxOf?_append_singleton (names : List Bytes) (last name : Bytes) :
    (names ++ [last]).idxOf? name =
      (names.idxOf? name).or (if name = last then some names.length else none) := by
  rw [List.idxOf?, List.findIdx?_append]
  by_cases h : name = last
  · simp [h, List.findIdx?_cons]
  · simp [h, Ne.symm h, List.findIdx?_cons]

theorem lookup_singleton (name key : Bytes) (dd : Nat) :
    List.lookup name [(key, dd)] = if name = key then some dd else none := by
  by_cases h : name = key
  · simp [h]
  · simp [List.lookup_cons, beq_eq_false_iff_ne.mpr h, h]

theorem idxOf?_lt {names : List Bytes} {name : Bytes} {i : Nat} (h : names.idxOf? name = some i) :
    ∃ hi : i < names.length, names[i] = name := by
  obtain ⟨hi, hname, -⟩ := List.idxOf?_eq_some_iff.mp h
  exact ⟨hi, hname⟩

variable {message : HttpMessage} {m_class : HttpHeader.Class} {value : Bytes}

theorem indexed_instantiate (derived : Derived) (major minor : UInt16) :
    (instantiate derived major minor).Indexed where
  lookup _ := rfl
  nodup := List.nodup_nil
  named _ h := absurd h List.not_mem_nil

theorem Indexed.lookup_eq_none (h : message.Indexed) {name : Bytes} (hname : name ∉ message.keys) :
    message.m_directory.lookup name = none := by
  rw [h.lookup, List.idxOf?_eq_none_iff]
  exact hname

theorem Indexed.setClass_new (h : message.Indexed) (value : Bytes) (hkey : m_class.key ∉ message.keys) :
    message.setClass m_class value =
      { message with
        m_sequentialHeaders := message.m_sequentialHeaders ++ [⟨m_class, value⟩]
        m_directory := message.m_directory ++
          [(m_class.key, message.m_sequentialHeaders.length)] } := by
  rw [setClass, h.lookup_eq_none hkey]
  rfl

theorem Indexed.setClass_known (h : message.Indexed) (value : Bytes) (hkey : m_class.key ∈ message.keys) :
    ∃ dd, message.keys.idxOf? m_class.key = some dd ∧ message.setClass m_class value =
      { message with
        m_sequentialHeaders := message.m_sequentialHeaders.modify dd (·.setValue value) } := by
  cases hdd : message.keys.idxOf? m_class.key with
  | none => exact absurd hkey (List.idxOf?_eq_none_iff.mp hdd)
  | some dd => exact ⟨dd, rfl, by rw [setClass, h.lookup, hdd]⟩

theorem Indexed.keys_setClass (h : message.Indexed) (m_class : HttpHeader.Class)
    (value : Bytes) :
    (message.setClass m_class value).keys =
      if m_class.key ∈ message.keys then message.keys else message.keys ++ [m_class.key] := by
  split
  · next hkey =>
    obtain ⟨dd, -, hset⟩ := h.setClass_known value hkey
    rw [hset]
    exact keys_modify _ _ _
  · next hkey =>
    rw [h.setClass_new value hkey]
    simp [keys]

theorem Indexed.setClass (h : message.Indexed) (hclass : m_class ≠ .predefined .Custom) :
    (message.setClass m_class value).Indexed := by
  have hkeys := h.keys_setClass m_class value
  by_cases hkey : m_class.key ∈ message.keys
  · obtain ⟨dd, -, hset⟩ := h.setClass_known value hkey
    rw [if_pos hkey] at hkeys
    refine ⟨fun name => ?_, hkeys ▸ h.nodup, fun header hheader => ?_⟩
    · rw [hkeys, hset]
      exact h.lookup name
    · rw [hset] at hheader
      obtain ⟨i, hi⟩ := List.mem_iff_getElem?.mp hheader
      rw [List.getElem?_modify] at hi
      obtain ⟨old, hold, rfl⟩ := Option.map_eq_some_iff.mp hi
      have hmem := h.named old (List.mem_of_getElem? hold)
      split <;> simpa using hmem
  · have hset := h.setClass_new value hkey
    rw [if_neg hkey] at hkeys
    refine ⟨fun name => ?_, ?_, fun header hheader => ?_⟩
    · rw [hkeys, hset, List.lookup_append, h.lookup, idxOf?_append_singleton, lookup_singleton]
      simp [keys]
    · rw [hkeys, List.nodup_append]
      exact ⟨h.nodup, List.nodup_singleton _, by rintro a ha b hb rfl; simp_all⟩
    · rw [hset, List.mem_append, List.mem_singleton] at hheader
      rcases hheader with hheader | rfl
      · exact h.named header hheader
      · exact hclass

/-- Setting a header joins its value and leaves the values of the other names alone. -/
theorem Indexed.value?_setClass (h : message.Indexed) (name : Bytes) :
    (message.setClass m_class value).value? name =
      if name = m_class.key then some (joinValue ((message.value? name).getD []) value)
      else message.value? name := by
  by_cases hkey : m_class.key ∈ message.keys
  · obtain ⟨dd, hdd, hset⟩ := h.setClass_known value hkey
    obtain ⟨hlt, hget⟩ := idxOf?_lt hdd
    have hlt' : dd < message.m_sequentialHeaders.length := by simpa [keys] using hlt
    rw [hset, value?, value?, h.lookup]
    split
    · next hname =>
      subst hname
      simp [hdd, hlt', setValue_value]
    · next hname =>
      cases hi : message.keys.idxOf? name with
      | none => rfl
      | some i =>
        obtain ⟨hlt', hget'⟩ := idxOf?_lt hi
        have hne : dd ≠ i := fun e => by
          subst e
          exact hname (hget'.symm.trans hget)
        simp [List.getElem?_modify, hne]
  · have hset := h.setClass_new value hkey
    have hlength : message.m_sequentialHeaders.length = message.keys.length := by simp [keys]
    rw [hset, value?, value?, List.lookup_append, h.lookup]
    split
    · next hname =>
      subst hname
      simp [List.idxOf?_eq_none_iff.mpr hkey, joinValue]
    · next hname =>
      cases hi : message.keys.idxOf? name with
      | none =>
        simp [lookup_singleton, hname]
      | some i =>
        obtain ⟨hlt, -⟩ := idxOf?_lt hi
        rw [← hlength] at hlt
        simp [List.getElem?_append_left hlt]

end Coffee.Http.HttpMessage
