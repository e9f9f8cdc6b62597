import Coffee.Http.RoundTrip
import Coffee.Library.Runs

/-! # Content-Length over the life of a message

The encoder adds the header to the message that it encodes, once, and nothing ever takes it out or
changes it. So a message that is encoded again announces the size of the first body.
-/

namespace Coffee.Http

open Coffee.Library Coffee.Basis Library.Runs

/-- The name of the header, in any letter case. -/
def NamesContentLength (name : Bytes) : Prop :=
  name.map toLower = HttpHeader.Type.ContentLength.asString.map toLower

instance (name : Bytes) : Decidable (NamesContentLength name) :=
  inferInstanceAs (Decidable (_ = _))

theorem namesContentLength_key {type : HttpHeader.Type}
    (h : NamesContentLength type.asString) : type = .ContentLength := by
  have hall : ∀ t ∈ HttpHeader.Type.predefined, NamesContentLength t.asString →
      t = .ContentLength := by
    decide +kernel
  rcases Decidable.em (type = .Custom) with rfl | hne
  · exact absurd h (by decide +kernel)
  · exact hall type (HttpHeader.Type.mem_predefined hne) h

namespace HttpMessage

def clearBody (message : HttpMessage) : HttpMessage := { message with m_body := [] }

/-- The values of the Content-Length lines of a message. -/
def contentLengths (message : HttpMessage) : List Bytes :=
  (message.m_sequentialHeaders.filter fun header => NamesContentLength header.m_class.key).map
    (·.m_value)

/-- The block for a message, with the headers that it has. -/
def rendering (message : HttpMessage) : Bytes :=
  message.encodeFirstLine ++ newLineCharacters ++
    (message.m_sequentialHeaders.map HttpHeader.line).flatMap (· ++ newLineCharacters) ++
    newLineCharacters ++ message.m_body

/-- The message behind an encoding. -/
def completed (message : HttpMessage) : HttpMessage :=
  if message.m_body ≠ [] ∧ HttpHeader.Type.ContentLength.asString ∉ message.keys then
    message.setClass (.predefined .ContentLength) (asString message.m_body.length)
  else message

variable {message : HttpMessage}

theorem Indexed.completed (h : message.Indexed) : message.completed.Indexed := by
  unfold HttpMessage.completed
  split
  · exact h.setClass (by decide)
  · exact h

theorem Indexed.hasHeader_contentLength (h : message.Indexed) :
    message.hasHeader .ContentLength =
      .ok (HttpHeader.Type.ContentLength.asString ∈ message.keys) := by
  rw [hasHeader, if_neg (by decide), hasCustomHeader, h.lookup]
  congr 1
  rw [Bool.eq_iff_iff, decide_eq_true_iff]
  simp

theorem Indexed.addContentLength_eq (h : message.Indexed) :
    HttpProtocolEncoder.addContentLength message = .ok message.completed := by
  simp only [HttpProtocolEncoder.addContentLength, h.hasHeader_contentLength, bind, Except.bind,
    pure, Except.pure, HttpMessage.completed]
  rcases Decidable.em (message.m_body = []) with hbody | hbody
  · simp [hbody]
  · have hpos : 0 < message.m_body.length := List.length_pos_of_ne_nil hbody
    rcases Decidable.em (HttpHeader.Type.ContentLength.asString ∈ message.keys) with hkey | hkey
    · simp [hkey]
    · simp [hbody, hpos, hkey, setHeader]

theorem Indexed.apply_eq (h : message.Indexed) : HttpProtocolEncoder.apply message =
    .ok (message.completed.rendering, message.completed) := by
  simp only [HttpProtocolEncoder.apply, h.addContentLength_eq, bind, Except.bind,
    HttpProtocolEncoder.encodeHeaders_eq h.completed.named]
  rfl

theorem completed_body (message : HttpMessage) : message.completed.m_body = message.m_body := by
  unfold completed
  split
  · exact (setClass_rest message _ _).2.2.2
  · rfl

theorem contentLengths_eq_nil_iff : message.contentLengths = [] ↔
    ∀ key ∈ message.keys, ¬ NamesContentLength key := by
  simp [contentLengths, keys, List.filter_eq_nil_iff]

section SetClass

variable {m_class : HttpHeader.Class} {value : Bytes}

theorem filter_modify {headers : List HttpHeader} {dd : Nat}
    (h : ∀ header ∈ headers[dd]?, ¬ NamesContentLength header.m_class.key) :
    ((headers.modify dd (·.setValue value)).filter fun header =>
        NamesContentLength header.m_class.key) =
      headers.filter fun header => NamesContentLength header.m_class.key := by
  induction headers generalizing dd with
  | nil => cases dd <;> rfl
  | cons header headers ih =>
    cases dd with
    | zero =>
      have hnot : ¬ NamesContentLength header.m_class.key := h header rfl
      rw [List.modify_zero_cons, List.filter_cons_of_neg (by simpa using hnot),
        List.filter_cons_of_neg (by simpa using hnot)]
    | succ dd =>
      rw [List.modify_succ_cons, List.filter_cons, List.filter_cons, ih h]

/-- Setting another header leaves the Content-Length lines alone. -/
theorem Indexed.contentLengths_setClass (h : message.Indexed)
    (hclass : ¬ NamesContentLength m_class.key) :
    (message.setClass m_class value).contentLengths = message.contentLengths := by
  rcases Decidable.em (m_class.key ∈ message.keys) with hkey | hkey
  · obtain ⟨dd, hdd, hset⟩ := h.setClass_known value hkey
    obtain ⟨hlt, hget⟩ := idxOf?_lt hdd
    rw [contentLengths, contentLengths, hset]
    congr 1
    refine filter_modify fun header hheader => ?_
    have hname : header.m_class.key = m_class.key := by
      rw [← hget]
      obtain ⟨_, rfl⟩ := List.getElem?_eq_some_iff.mp hheader
      simp [keys]
    rw [hname]
    exact hclass
  · rw [contentLengths, contentLengths, h.setClass_new value hkey, List.filter_append,
      List.filter_cons_of_neg (by simpa using hclass), List.filter_nil, List.append_nil]

theorem Indexed.contentLengths_new (h : message.Indexed)
    (hkey : HttpHeader.Type.ContentLength.asString ∉ message.keys) :
    (message.setClass (.predefined .ContentLength) value).contentLengths =
      message.contentLengths ++ [value] := by
  have hset : message.setClass (.predefined .ContentLength) value = _ := h.setClass_new value hkey
  rw [contentLengths, contentLengths, hset, List.filter_append,
    List.map_append, List.filter_cons_of_pos (by simp [HttpHeader.Class.key, NamesContentLength])]
  rfl

theorem Indexed.mem_keys_setClass (h : message.Indexed) {key : Bytes} :
    key ∈ (message.setClass m_class value).keys ↔ key = m_class.key ∨ key ∈ message.keys := by
  rw [h.keys_setClass]
  split
  · next hkey => exact ⟨Or.inr, fun hmem => hmem.elim (fun heq => heq ▸ hkey) id⟩
  · rw [List.mem_append, List.mem_singleton, or_comm]

end SetClass

/-- A call of the user. The calls that set the header themselves are left out. -/
inductive Call where
  | setBody (body : Bytes)
  | clearBody
  | setHeader (type : HttpHeader.Type) (value : Bytes) (h : type ≠ .ContentLength)
  | setCustomHeader (name value : Bytes) (h : ¬ NamesContentLength name)
  | encode

/-- A call that throws leaves the message as it was. -/
def call (message : HttpMessage) : Call → HttpMessage
  | .setBody body => message.setBody body
  | .clearBody => message.clearBody
  | .setHeader type value _ =>
    match message.setHeader type value with
    | .ok message => message
    | .error _ => message
  | .setCustomHeader name value _ => message.setCustomHeader name value
  | .encode =>
    match HttpProtocolEncoder.apply message with
    | .ok (_, message) => message
    | .error _ => message

/-- The block announces the body that it carries. -/
def Fresh (message : HttpMessage) : Prop :=
  match HttpProtocolEncoder.apply message with
  | .ok (block, after) => block = after.rendering ∧ after.m_body = message.m_body ∧
      if message.m_body = [] then
        after.contentLengths = [] ∨ after.contentLengths = [asString (0 : Nat)]
      else after.contentLengths = [asString message.m_body.length]
  | .error _ => False

instance (message : HttpMessage) : Decidable message.Fresh :=
  match h : HttpProtocolEncoder.apply message with
  | .ok (block, after) =>
    decidable_of_iff (block = after.rendering ∧ after.m_body = message.m_body ∧
      if message.m_body = [] then
        after.contentLengths = [] ∨ after.contentLengths = [asString (0 : Nat)]
      else after.contentLengths = [asString message.m_body.length]) (by rw [Fresh, h])
  | .error _ => .isFalse (by rw [Fresh, h]; exact id)

def Announces (message : HttpMessage) : Call → Prop
  | .encode => message.Fresh
  | _ => True

/-- The size that is announced, and the size of the body. -/
structure Announcement where
  announced : Option Nat
  size : Nat
deriving DecidableEq, Repr

namespace Announcement

/-- The first encoding of a body announces its size for good. -/
def call (announcement : Announcement) : Call → Announcement
  | .setBody body => { announcement with size := body.length }
  | .clearBody => { announcement with size := 0 }
  | .encode => { announcement with
      announced := announcement.announced.or
        (if announcement.size = 0 then none else some announcement.size) }
  | _ => announcement

/-- An encoding finds nothing announced, or the size of its body. -/
def Steady (announcement : Announcement) : Call → Prop
  | .encode => announcement.announced = none ∨ announcement.announced = some announcement.size
  | _ => True

end Announcement

/-- What is announced are the Content-Length lines of the message. -/
structure Reads (message : HttpMessage) (announcement : Announcement) : Prop where
  indexed : message.Indexed
  size : message.m_body.length = announcement.size
  exact : ∀ key ∈ message.keys, NamesContentLength key →
    key = HttpHeader.Type.ContentLength.asString
  values : message.contentLengths =
    (announcement.announced.map fun size => asString (size : Nat)).toList
  pos : announcement.announced ≠ some 0

variable {announcement : Announcement}

theorem reads_instantiate (derived : Derived) (major minor : UInt16) :
    (instantiate derived major minor).Reads ⟨none, 0⟩ where
  indexed := indexed_instantiate derived major minor
  size := rfl
  exact := fun _ h => absurd h List.not_mem_nil
  values := rfl
  pos := nofun

theorem Reads.setClass (h : message.Reads announcement) {m_class : HttpHeader.Class}
    (value : Bytes) (hcustom : m_class ≠ .predefined .Custom)
    (hclass : ¬ NamesContentLength m_class.key) :
    (message.setClass m_class value).Reads announcement where
  indexed := h.indexed.setClass hcustom
  size := by
    rw [(setClass_rest message _ _).2.2.2]
    exact h.size
  exact := by
    intro key hkey hnames
    rcases h.indexed.mem_keys_setClass.mp hkey with rfl | hkey
    · exact absurd hnames hclass
    · exact h.exact key hkey hnames
  values := (h.indexed.contentLengths_setClass hclass).trans h.values
  pos := h.pos

theorem Reads.contentLength_mem_iff (h : message.Reads announcement) :
    HttpHeader.Type.ContentLength.asString ∈ message.keys ↔ announcement.announced ≠ none := by
  have hvalues := h.values
  constructor
  · intro hkey hnone
    rw [hnone] at hvalues
    exact contentLengths_eq_nil_iff.mp hvalues _ hkey rfl
  · intro hsome
    by_contra hkey
    have hnil : message.contentLengths = [] := contentLengths_eq_nil_iff.mpr
      fun key hmem hnames => hkey (h.exact key hmem hnames ▸ hmem)
    rw [hnil] at hvalues
    cases hcase : announcement.announced with
    | none => exact hsome hcase
    | some size => simp [hcase] at hvalues

theorem Reads.completed_eq (h : message.Reads announcement) : message.completed =
    if announcement.size ≠ 0 ∧ announcement.announced = none then
      message.setClass (.predefined .ContentLength) (asString announcement.size)
    else message := by
  have hbody : message.m_body ≠ [] ↔ announcement.size ≠ 0 := by
    rw [← h.size, ne_eq, ne_eq, List.length_eq_zero_iff]
  have hcond : message.m_body ≠ [] ∧ HttpHeader.Type.ContentLength.asString ∉ message.keys ↔
      announcement.size ≠ 0 ∧ announcement.announced = none := by
    rw [hbody, h.contentLength_mem_iff, not_not]
  exact if_congr hcond (by rw [h.size]) rfl

theorem Reads.completed (h : message.Reads announcement) :
    message.completed.Reads (announcement.call .encode) := by
  rw [h.completed_eq]
  split
  · rename_i hnew
    obtain ⟨hsize, hnone⟩ := hnew
    have hkey : HttpHeader.Type.ContentLength.asString ∉ message.keys := by
      rw [h.contentLength_mem_iff, not_not]
      exact hnone
    refine ⟨h.indexed.setClass (by decide), ?_, ?_, ?_, ?_⟩
    · rw [(setClass_rest message _ _).2.2.2]
      exact h.size
    · intro key hmem hnames
      rcases h.indexed.mem_keys_setClass.mp hmem with rfl | hmem
      · rfl
      · exact h.exact key hmem hnames
    · rw [h.indexed.contentLengths_new hkey, h.values, hnone, Announcement.call, hnone,
        if_neg hsize]
      rfl
    · simp [Announcement.call, hnone, hsize]
  · rename_i hold
    have hcall : announcement.call .encode = announcement := by
      obtain ⟨announced, size⟩ := announcement
      rw [Announcement.call]
      cases announced with
      | some announced => rfl
      | none =>
        have hzero : size = 0 := not_not.mp fun hsize => hold ⟨hsize, rfl⟩
        simp [hzero]
    rw [hcall]
    exact h

theorem asString_inj {m n : Nat} : asString m = asString n ↔ m = n := by
  constructor
  · intro h
    rw [asString_natCast, asString_natCast] at h
    have hvalue := congrArg Decimal.value h
    rwa [Decimal.value_encode, Decimal.value_encode] at hvalue
  · rintro rfl
    rfl

theorem Reads.fresh_iff (h : message.Reads announcement) :
    message.Fresh ↔ announcement.Steady .encode := by
  have hvalues := h.completed.values
  have hbody : message.m_body = [] ↔ announcement.size = 0 := by
    rw [← h.size, List.length_eq_zero_iff]
  rw [Fresh, h.indexed.apply_eq]
  simp only [completed_body, true_and, hbody, hvalues, Announcement.Steady, Announcement.call,
    h.size]
  cases hcase : announcement.announced with
  | none =>
    split
    · rename_i hzero
      simp [hzero]
    · simp
  | some announced =>
    have hpos : announced ≠ 0 := by
      rintro rfl
      exact h.pos hcase
    split
    · rename_i hzero
      have hne : asString announced ≠ asString (0 : Nat) := fun heq => hpos (asString_inj.mp heq)
      rw [hzero]
      simpa [hpos] using hne
    · simp [asString_inj]

theorem Reads.call (h : message.Reads announcement) (c : Call) :
    (message.call c).Reads (announcement.call c) := by
  cases c with
  | setBody body =>
    exact ⟨⟨h.indexed.lookup, h.indexed.nodup, h.indexed.named⟩, rfl, h.exact, h.values, h.pos⟩
  | clearBody =>
    exact ⟨⟨h.indexed.lookup, h.indexed.nodup, h.indexed.named⟩, rfl, h.exact, h.values, h.pos⟩
  | setHeader type value hother =>
    rcases Decidable.em (type = .Custom) with rfl | hcustom
    · exact h
    · rw [HttpMessage.call, HttpMessage.setHeader, if_neg hcustom]
      refine h.setClass value (fun hclass => hcustom ?_) fun hnames => hother ?_
      · exact HttpHeader.Class.predefined.inj hclass
      · exact namesContentLength_key hnames
  | setCustomHeader name value hother =>
    refine h.setClass value (fun hclass => ?_) hother
    cases hclass
  | encode =>
    rw [HttpMessage.call, h.indexed.apply_eq]
    exact h.completed

/-- The encodings of a message announce the bodies that they carry exactly when, from the first body
that is encoded on, every encoding finds a body of its size. -/
theorem announces_iff_steady (derived : Derived) (major minor : UInt16) (calls : List Call) :
    Meets call Announces (instantiate derived major minor) calls ↔
      Meets Announcement.call Announcement.Steady ⟨none, 0⟩ calls := by
  have hstep : ∀ message announcement c, Reads message announcement →
      Reads (message.call c) (announcement.call c) := fun _ _ c h => h.call c
  have hok : ∀ message announcement c, Reads message announcement →
      (message.Announces c ↔ announcement.Steady c) := by
    intro message announcement c h
    cases c with
    | encode => exact h.fresh_iff
    | _ => exact Iff.rfl
  exact meets_simulation hstep hok (reads_instantiate derived major minor) calls

/-- A shorter body behind the first one keeps its size. -/
theorem not_announces : ¬ ∀ (derived : Derived) (major minor : UInt16) (calls : List Call),
    Meets call Announces (instantiate derived major minor) calls := by
  intro h
  obtain ⟨-, -, -, hfresh, -⟩ := h (.response 200 []) 1 1
    [.setBody (text "hello"), .encode, .setBody (text "bye"), .encode]
  rw [Announces] at hfresh
  exact absurd hfresh (by decide +kernel)

end HttpMessage

end Coffee.Http
