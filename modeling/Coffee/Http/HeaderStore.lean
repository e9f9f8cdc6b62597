import Coffee.Http.Directory
import Coffee.Library.Runs

/-! # The headers of a message over any calls

A header that is set for the first time comes last, and every further value is joined to the value
that is there. `getHeaderValue` hands out a reference, so a caller may give a header its own value.
-/

namespace Coffee.Http

open Coffee.Library Coffee.Basis

/-- `setValue` of a reference to the value of the header, which has changed when it is appended. -/
def HttpHeader.setOwnValue (header : HttpHeader) : HttpHeader :=
  if header.m_value.isEmpty then header
  else
    let m_value := header.m_value ++ text ","
    { header with m_value := m_value ++ m_value }

namespace HttpMessage

def clear (message : HttpMessage) : HttpMessage :=
  { message with m_directory := [], m_sequentialHeaders := [], m_body := [] }

/-- A text, or the string that the message returned as the value of the header with a name. -/
inductive Argument where
  | literal (value : Bytes)
  | reference (headerName : Bytes)
deriving DecidableEq, Repr

def Argument.get (message : HttpMessage) : Argument → Except RuntimeException Bytes
  | .literal value => .ok value
  | .reference headerName => message.getCustomHeaderValue headerName

/-- `value` is what the argument refers to. -/
def setFrom (message : HttpMessage) (m_class : HttpHeader.Class) (argument : Argument)
    (value : Bytes) : HttpMessage :=
  match message.m_directory.lookup m_class.key with
  | none => message.setClass m_class value
  | some dd =>
    if argument = .reference m_class.key then
      { message with
        m_sequentialHeaders := message.m_sequentialHeaders.modify dd (·.setOwnValue) }
    else message.setClass m_class value

inductive HeaderCall where
  | setHeader (type : HttpHeader.Type) (argument : Argument)
  | setCustomHeader (headerName : Bytes) (argument : Argument)
  | clear
deriving DecidableEq, Repr

def callHeader (message : HttpMessage) : HeaderCall → Except RuntimeException HttpMessage
  | .setHeader type argument => do
    let value ← argument.get message
    if type = .Custom then .error HttpHeader.noneInstantiated
    else return message.setFrom (.predefined type) argument value
  | .setCustomHeader headerName argument => do
    return message.setFrom (.custom headerName) argument (← argument.get message)
  | .clear => .ok message.clear

def stepHeader (message : HttpMessage) (call : HeaderCall) : HttpMessage :=
  match message.callHeader call with
  | .ok message => message
  | .error _ => message

theorem setFrom_of_ne {message : HttpMessage} {m_class : HttpHeader.Class} {argument : Argument}
    (h : argument ≠ .reference m_class.key) (value : Bytes) :
    message.setFrom m_class argument value = message.setClass m_class value := by
  unfold setFrom
  split
  · rfl
  · exact if_neg h

theorem callHeader_value (message : HttpMessage) (type : HttpHeader.Type)
    (headerName value : Bytes) :
    message.callHeader (.setHeader type (.literal value)) = message.setHeader type value ∧
      message.callHeader (.setCustomHeader headerName (.literal value)) =
        .ok (message.setCustomHeader headerName value) := by
  have hset : ∀ m_class, message.setFrom m_class (.literal value) value =
      message.setClass m_class value := fun _ => setFrom_of_ne (by simp) value
  constructor
  · rw [setHeader, ← hset]
    rfl
  · rw [setCustomHeader, ← hset]
    rfl

/-! ## What was set

The settings are the names and values that were given since the headers were cleared, in order.
-/

abbrev Settings := List (Bytes × Bytes)

namespace Settings

def names (settings : Settings) : List Bytes :=
  settings.foldl (fun names setting =>
    if names.contains setting.1 then names else names ++ [setting.1]) []

def joined (settings : Settings) (name : Bytes) : Bytes :=
  ((settings.filter (·.1 = name)).map Prod.snd).foldl joinValue []

def given (settings : Settings) : Argument → Option Bytes
  | .literal value => some value
  | .reference headerName =>
    if settings.names.contains headerName then some (settings.joined headerName) else none

end Settings

namespace HeaderCall

/-- The name that a call sets, and what it sets it to. -/
def target : HeaderCall → Option (Bytes × Argument)
  | .setHeader type argument => if type = .Custom then none else some (type.asString, argument)
  | .setCustomHeader headerName argument => some (headerName, argument)
  | .clear => none

/-- A call that gives a header its own value, by reference, does so while that is empty. -/
def Separate (settings : Settings) (call : HeaderCall) : Prop :=
  ∀ name, call.target = some (name, .reference name) → settings.joined name = []

end HeaderCall

def record (settings : Settings) (call : HeaderCall) : Settings :=
  if call = .clear then []
  else match call.target with
    | none => settings
    | some (name, argument) =>
      ((settings.given argument).map fun value => settings ++ [(name, value)]).getD settings

/-- The list and the directory agree with what was set. -/
structure Keeps (message : HttpMessage) (settings : Settings) : Prop where
  getName : message.m_sequentialHeaders.map HttpHeader.getName = settings.names.map .ok
  distinct : settings.names.Nodup
  values : message.m_sequentialHeaders.map (·.m_value) = settings.names.map settings.joined
  directory : ∀ name, message.m_directory.lookup name = settings.names.idxOf? name

variable {message : HttpMessage} {settings : Settings} {m_class : HttpHeader.Class}

theorem names_concat (settings : Settings) (name value : Bytes) :
    Settings.names (settings ++ [(name, value)]) =
      if name ∈ settings.names then settings.names else settings.names ++ [name] := by
  rw [Settings.names, List.foldl_append]
  exact if_congr List.contains_iff_mem rfl rfl

theorem given_reference (settings : Settings) (headerName : Bytes) :
    settings.given (.reference headerName) =
      if headerName ∈ settings.names then some (settings.joined headerName) else none :=
  if_congr List.contains_iff_mem rfl rfl

theorem mem_names_concat {settings : Settings} {name value other : Bytes} :
    other ∈ Settings.names (settings ++ [(name, value)]) ↔
      other ∈ settings.names ∨ other = name := by
  rw [names_concat]
  split
  · next hmem => exact ⟨Or.inl, fun h => h.elim id fun heq => heq ▸ hmem⟩
  · rw [List.mem_append, List.mem_singleton]

theorem joined_concat (settings : Settings) (name value other : Bytes) :
    Settings.joined (settings ++ [(name, value)]) other =
      if other = name then joinValue (settings.joined other) value else settings.joined other := by
  unfold Settings.joined
  rw [List.filter_append, List.map_append, List.foldl_append]
  by_cases h : other = name
  · simp [h]
  · simp [h, Ne.symm h]

theorem joined_of_not_mem {settings : Settings} {name : Bytes} (h : name ∉ settings.names) :
    settings.joined name = [] := by
  induction settings using List.reverseRecOn with
  | nil => rfl
  | append_singleton settings setting ih =>
    rw [mem_names_concat, not_or] at h
    rw [joined_concat, if_neg h.2, ih h.1]

/-- The invariant: the directory, the list and the values, name by name. -/
structure Agrees (message : HttpMessage) (settings : Settings) : Prop where
  indexed : message.Indexed
  keys : message.keys = settings.names
  value? : ∀ name, message.value? name =
    if name ∈ settings.names then some (settings.joined name) else none

theorem Indexed.lookup_getElem (h : message.Indexed) {header : HttpHeader} {i : Nat}
    (hheader : message.m_sequentialHeaders[i]? = some header) :
    message.m_directory.lookup header.m_class.key = some i := by
  have hkey : message.keys[i]? = some header.m_class.key := by
    rw [keys, List.getElem?_map, hheader]
    rfl
  obtain ⟨hi, hget⟩ := List.getElem?_eq_some_iff.mp hkey
  rw [h.lookup, List.idxOf?_eq_some_iff]
  refine ⟨hi, hget, fun j hj heq => ?_⟩
  exact Nat.ne_of_lt hj ((List.Nodup.getElem_inj_iff h.nodup).mp (heq.trans hget.symm))

theorem Indexed.value?_getElem (h : message.Indexed) {header : HttpHeader} {i : Nat}
    (hheader : message.m_sequentialHeaders[i]? = some header) :
    message.value? header.m_class.key = some header.m_value := by
  rw [value?, h.lookup_getElem hheader, Option.bind_some, hheader]
  rfl

theorem Agrees.keeps (h : Agrees message settings) : Keeps message settings where
  getName := by
    have hnames : message.m_sequentialHeaders.map (·.m_class.key) = settings.names := h.keys
    rw [← hnames, List.map_map]
    exact List.map_congr_left fun header hheader =>
      HttpHeader.getName_eq_key (h.indexed.named header hheader)
  distinct := h.keys ▸ h.indexed.nodup
  values := by
    have hnames : message.m_sequentialHeaders.map (·.m_class.key) = settings.names := h.keys
    rw [← hnames, List.map_map]
    refine List.map_congr_left fun header hheader => ?_
    obtain ⟨i, hi⟩ := List.mem_iff_getElem?.mp hheader
    have hmem : header.m_class.key ∈ settings.names := by
      rw [← hnames]
      exact List.mem_map_of_mem hheader
    have hvalue := h.value? header.m_class.key
    rw [h.indexed.value?_getElem hi, if_pos hmem] at hvalue
    exact Option.some.inj hvalue
  directory name := by rw [h.indexed.lookup, h.keys]

theorem agrees_instantiate (derived : Derived) (major minor : UInt16) :
    Agrees (instantiate derived major minor) [] :=
  ⟨indexed_instantiate derived major minor, rfl, fun _ => rfl⟩

theorem agrees_clear (message : HttpMessage) : Agrees message.clear [] :=
  ⟨⟨fun _ => rfl, List.nodup_nil, List.forall_mem_nil _⟩, rfl, fun _ => rfl⟩

theorem Agrees.getD_value? (h : Agrees message settings) (name : Bytes) :
    (message.value? name).getD [] = settings.joined name := by
  rw [h.value?]
  split
  · rfl
  · next hname => exact (joined_of_not_mem hname).symm

theorem Agrees.setClass (h : Agrees message settings) (hclass : m_class ≠ .predefined .Custom)
    (value : Bytes) :
    Agrees (message.setClass m_class value) (settings ++ [(m_class.key, value)]) where
  indexed := h.indexed.setClass hclass
  keys := by rw [h.indexed.keys_setClass, names_concat, h.keys]
  value? name := by
    rw [h.indexed.value?_setClass, joined_concat, h.getD_value?, h.value?]
    by_cases hname : name = m_class.key
    · rw [if_pos hname, if_pos hname, if_pos (mem_names_concat.mpr (Or.inr hname))]
    · rw [if_neg hname, if_neg hname]
      exact if_congr (by rw [mem_names_concat, or_iff_left hname]) rfl rfl

theorem Agrees.given (h : Agrees message settings) (argument : Argument) :
    settings.given argument = (argument.get message).toOption := by
  cases argument with
  | literal value => rfl
  | reference headerName =>
    have hget : (message.getCustomHeaderValue headerName).toOption = message.value? headerName := by
      cases hvalue : message.getCustomHeaderValue headerName with
      | ok value => exact (getCustomHeaderValue_eq_ok_iff.mp hvalue).symm
      | error e =>
        cases hsome : message.value? headerName with
        | none => rfl
        | some value =>
          rw [getCustomHeaderValue_eq_ok_iff.mpr hsome] at hvalue
          cases hvalue
    rw [given_reference, ← h.value? headerName]
    exact hget.symm

/-! ## A header that is given its own value -/

theorem Agrees.header (h : Agrees message settings) {name : Bytes} (hname : name ∈ settings.names) :
    ∃ dd header, message.m_directory.lookup name = some dd ∧ settings.names[dd]? = some name ∧
      message.m_sequentialHeaders[dd]? = some header ∧ header.m_value = settings.joined name := by
  obtain ⟨header, hheader, rfl⟩ := List.mem_map.mp (h.keys ▸ hname)
  obtain ⟨dd, hdd⟩ := List.mem_iff_getElem?.mp hheader
  have hkey : settings.names[dd]? = some header.m_class.key := by
    have hnames : message.m_sequentialHeaders.map (·.m_class.key) = settings.names := h.keys
    rw [← hnames, List.getElem?_map, hdd]
    rfl
  have hvalue := h.value? header.m_class.key
  rw [h.indexed.value?_getElem hdd, if_pos hname] at hvalue
  exact ⟨dd, header, h.indexed.lookup_getElem hdd, hkey, hdd, Option.some.inj hvalue⟩

theorem setFrom_own {dd : Nat} (hdd : message.m_directory.lookup m_class.key = some dd)
    (value : Bytes) : message.setFrom m_class (.reference m_class.key) value =
      { message with
        m_sequentialHeaders := message.m_sequentialHeaders.modify dd (·.setOwnValue) } := by
  unfold setFrom
  simp only [hdd, if_true]

theorem setOwnValue_empty {header : HttpHeader} (h : header.m_value = []) :
    header.setOwnValue = header.setValue [] := by
  obtain ⟨m_class, m_value⟩ := header
  subst h
  rfl

theorem setOwnValue_value {header : HttpHeader} (h : header.m_value ≠ []) :
    header.setOwnValue.m_value =
      header.m_value ++ text "," ++ (header.m_value ++ text ",") := by
  rw [HttpHeader.setOwnValue, if_neg (by rwa [List.isEmpty_iff])]

theorem modify_congr {α : Type*} {l : List α} {i : Nat} {a : α} {f g : α → α}
    (ha : l[i]? = some a) (h : f a = g a) : l.modify i f = l.modify i g := by
  refine List.ext_getElem? fun j => ?_
  rw [List.getElem?_modify, List.getElem?_modify]
  by_cases hj : i = j
  · subst hj
    simp [ha, h]
  · simp [hj]

/-- Appending an empty value to itself is setting it to the empty text. -/
theorem Agrees.setFrom_empty (h : Agrees message settings) (hname : m_class.key ∈ settings.names)
    (hempty : settings.joined m_class.key = []) (value : Bytes) :
    message.setFrom m_class (.reference m_class.key) value = message.setClass m_class [] := by
  obtain ⟨dd, header, hdd, -, hheader, hvalue⟩ := h.header hname
  rw [setFrom_own hdd, HttpMessage.setClass, hdd]
  have hown := setOwnValue_empty (hvalue.trans hempty)
  rw [modify_congr (g := (·.setValue [])) hheader hown]

/-- Any other value ends with a further comma. -/
theorem Agrees.own_breaks (h : Agrees message settings) (hname : m_class.key ∈ settings.names)
    (hne : settings.joined m_class.key ≠ []) (value : Bytes) :
    ¬ Keeps (message.setFrom m_class (.reference m_class.key) value)
      (settings ++ [(m_class.key, settings.joined m_class.key)]) := by
  intro hkeeps
  obtain ⟨dd, header, hdd, hkey, hheader, hold⟩ := h.header hname
  have hnames : Settings.names (settings ++ [(m_class.key, settings.joined m_class.key)]) =
      settings.names := by rw [names_concat, if_pos hname]
  have hat := congrArg (·[dd]?) hkeeps.values
  simp only [setFrom_own hdd, hnames, List.getElem?_map, List.getElem?_modify, hheader, hkey,
    joined_concat, if_true, Option.map_some, Option.some.injEq, Option.map_eq_map] at hat
  rw [setOwnValue_value (hold ▸ hne), hold, joinValue, if_neg (by rwa [List.isEmpty_iff])] at hat
  have hlength := congrArg List.length hat
  simp only [List.length_append] at hlength
  have htext : (text ",").length = 1 := by decide
  omega

/-! ## Any calls -/

theorem callHeader_of_target {call : HeaderCall} {name : Bytes} {argument : Argument}
    (h : call.target = some (name, argument)) : ∃ m_class : HttpHeader.Class, m_class.key = name ∧
      m_class ≠ .predefined .Custom ∧ ∀ message : HttpMessage,
        message.callHeader call = (argument.get message).map (message.setFrom m_class argument) := by
  cases call with
  | clear => cases h
  | setHeader type argument' =>
    rw [HeaderCall.target] at h
    split at h
    · cases h
    · next htype =>
      obtain ⟨rfl, rfl⟩ := Prod.mk.inj (Option.some.inj h)
      refine ⟨.predefined type, rfl, by simpa using htype, fun message => ?_⟩
      rw [callHeader]
      simp only [if_neg htype]
      rfl
  | setCustomHeader headerName argument' =>
    obtain ⟨rfl, rfl⟩ := Prod.mk.inj (Option.some.inj h)
    exact ⟨.custom headerName, rfl, by simp, fun message => rfl⟩

/-- A call that sets a header does so with the value that its argument has. -/
theorem Agrees.step_target (h : Agrees message settings) {call : HeaderCall} {name : Bytes}
    {argument : Argument} (htarget : call.target = some (name, argument)) :
    settings.given argument = none ∧ message.stepHeader call = message ∧
        record settings call = settings ∨
      ∃ (m_class : HttpHeader.Class) (value : Bytes), m_class.key = name ∧
        m_class ≠ .predefined .Custom ∧ settings.given argument = some value ∧
          message.stepHeader call = message.setFrom m_class argument value ∧
            record settings call = settings ++ [(name, value)] := by
  obtain ⟨m_class, hkey, hclass, hcall⟩ := callHeader_of_target htarget
  have hclear : call ≠ .clear := by
    rintro rfl
    cases htarget
  have hrecord : record settings call =
      ((settings.given argument).map fun value => settings ++ [(name, value)]).getD settings := by
    rw [record, if_neg hclear, htarget]
  rw [hrecord, stepHeader, hcall, h.given]
  cases argument.get message with
  | error e => exact Or.inl ⟨rfl, rfl, rfl⟩
  | ok value => exact Or.inr ⟨m_class, value, hkey, hclass, rfl, rfl, rfl⟩

theorem step_no_target {call : HeaderCall} (htarget : call.target = none) :
    call = .clear ∨ message.stepHeader call = message ∧ record settings call = settings := by
  cases call with
  | clear => exact Or.inl rfl
  | setCustomHeader headerName argument => cases htarget
  | setHeader type argument =>
    refine Or.inr ⟨?_, by simp [record, htarget]⟩
    rw [HeaderCall.target] at htarget
    split at htarget
    · next htype =>
      subst htype
      rw [stepHeader, callHeader]
      cases argument.get message <;> rfl
    · cases htarget

theorem Agrees.step (h : Agrees message settings) {call : HeaderCall}
    (hcall : call.Separate settings) :
    Agrees (message.stepHeader call) (record settings call) := by
  cases htarget : call.target with
  | none =>
    have hcases : call = .clear ∨ message.stepHeader call = message ∧
        record settings call = settings := step_no_target htarget
    rcases hcases with rfl | ⟨hstep, hrecord⟩
    · exact agrees_clear message
    · rwa [hstep, hrecord]
  | some target =>
    obtain ⟨name, argument⟩ := target
    rcases h.step_target htarget with
      ⟨-, hstep, hrecord⟩ | ⟨m_class, value, rfl, hclass, hgiven, hstep, hrecord⟩
    · rwa [hstep, hrecord]
    · rw [hstep, hrecord]
      by_cases hown : argument = .reference m_class.key
      · subst hown
        have hempty := hcall m_class.key htarget
        rw [given_reference] at hgiven
        split at hgiven
        · next hname =>
          rw [h.setFrom_empty hname hempty, ← Option.some.inj hgiven, hempty]
          exact h.setClass hclass []
        · cases hgiven
      · rw [setFrom_of_ne hown]
        exact h.setClass hclass value

theorem Agrees.step_breaks (h : Agrees message settings) {call : HeaderCall}
    (hcall : ¬ call.Separate settings) :
    ¬ Keeps (message.stepHeader call) (record settings call) := by
  obtain ⟨name, hname⟩ := not_forall.mp hcall
  obtain ⟨htarget, hne⟩ := Classical.not_imp.mp hname
  have hname : name ∈ settings.names := by
    by_contra hnot
    exact hne (joined_of_not_mem hnot)
  have hvalue : settings.given (.reference name) = some (settings.joined name) :=
    (given_reference settings name).trans (if_pos hname)
  rcases h.step_target htarget with
    ⟨hnone, -⟩ | ⟨m_class, value, rfl, -, hgiven, hstep, hrecord⟩
  · rw [hvalue] at hnone
    cases hnone
  · rw [hvalue] at hgiven
    obtain rfl := Option.some.inj hgiven
    rw [hstep, hrecord]
    exact h.own_breaks hname hne _

/-- Behind any calls, the list and the directory hold what was set, as long as no header is given
its own value, other than the empty one, by reference. -/
theorem keeps_iff_separate (derived : Derived) (major minor : UInt16) (calls : List HeaderCall) :
    (∀ pre, pre <+: calls → Keeps (Runs.run stepHeader (instantiate derived major minor) pre)
      (Runs.run record [] pre)) ↔
        Runs.Meets record (fun settings call => call.Separate settings) [] calls := by
  have hkeeps : ∀ (message : HttpMessage) (settings : Settings) (call : HeaderCall),
      Agrees message settings → True → call.Separate settings →
        Agrees (message.stepHeader call) (record settings call) :=
    fun _ _ _ h _ hcall => h.step hcall
  have hbreaks : ∀ (message : HttpMessage) (settings : Settings) (call : HeaderCall),
      Agrees message settings → True → ¬ call.Separate settings →
        ¬ Keeps (message.stepHeader call) (record settings call) :=
    fun _ _ _ h _ hcall => h.step_breaks hcall
  exact Runs.forall_prefix_iff_meets (fun _ _ h => h.keeps) hkeeps hbreaks
    (agrees_instantiate derived major minor) (Runs.meets_true record [] calls)

/-- A header that is set to its own value, by reference, ends with a comma of its own. -/
theorem not_keeps_own : ¬ ∀ (derived : Derived) (major minor : UInt16) (calls : List HeaderCall),
    Keeps (Runs.run stepHeader (instantiate derived major minor) calls) (Runs.run record [] calls) := by
  intro hall
  have hkeeps := (hall (.response 200 []) 1 1 [.setHeader .Host (.literal (text "a")),
    .setHeader .Host (.reference (text "Host"))]).values
  revert hkeeps
  decide +kernel

end HttpMessage

end Coffee.Http
