import Coffee.Http.FirstLine

/-! # Reading header lines

What one line of the head does to the message under construction, in either of the two states
that read headers, and how the lines the encoder writes rebuild the header list.
-/

namespace Coffee.Http

open Coffee.Library Coffee.Basis HttpProtocolState

def lineClass (value : Bytes) : HttpHeader.Class :=
  match tryStandardType (separate value 58).1 with
  | some type => .predefined type
  | none => .custom (separate value 58).1

def HttpMessage.addLine (message : HttpMessage) (value : Bytes) : HttpMessage :=
  message.setClass (lineClass value) (separate value 58).2

def announcesLength (value : Bytes) : Bool :=
  lineClass value == .predefined .ContentLength && isNumeric (separate value 58).2

/-- The `m_bodyExpectedSize` that a line sets. -/
def announcedSize (value : Bytes) : UInt32 := UInt32.ofInt (atol (separate value 58).2)

theorem tryStandardType_ne_custom {item : Bytes} {type : HttpHeader.Type}
    (h : tryStandardType item = some type) : type ≠ .Custom := by
  rintro rfl
  exact absurd (List.mem_of_find?_eq_some h) (by decide)

theorem lineClass_ne_custom (value : Bytes) : lineClass value ≠ .predefined .Custom := by
  unfold lineClass
  split
  · next type htype => simpa using tryStandardType_ne_custom htype
  · simp

theorem process_waitingContentLength (message : HttpMessage) {value : Bytes} (h : value ≠ []) :
    process (.WaitingContentLength message) value =
      .ok (.Continue, if announcesLength value
        then .WaitingBody (message.addLine value) (announcedSize value)
        else .WaitingContentLength (message.addLine value)) := by
  rw [process, if_neg (by simpa using h)]
  unfold announcesLength HttpMessage.addLine lineClass
  cases htype : tryStandardType (separate value 58).1 with
  | none =>
    simp only [htype]
    rfl
  | some type =>
    simp only [htype, HttpMessage.setHeader, if_neg (tryStandardType_ne_custom htype), bind,
      Except.bind, pure, Except.pure]
    by_cases hlength : type = .ContentLength
    · subst hlength
      cases isNumeric (separate value 58).2 <;> rfl
    · have hclass : (HttpHeader.Class.predefined type == .predefined .ContentLength) = false := by
        simpa using hlength
      simp [hlength, hclass]

theorem process_waitingBody (message : HttpMessage) (n : UInt32) {value : Bytes} (h : value ≠ []) :
    process (.WaitingBody message n) value =
      .ok (.Continue, .WaitingBody (message.addLine value) n) := by
  rw [process, if_neg (by simpa using h)]
  unfold HttpMessage.addLine lineClass
  cases htype : tryStandardType (separate value 58).1 with
  | none =>
    simp only [htype]
    rfl
  | some type =>
    simp only [htype, HttpMessage.setHeader, if_neg (tryStandardType_ne_custom htype), bind,
      Except.bind, pure, Except.pure]

namespace HttpHeader

def line (header : HttpHeader) : Bytes := header.m_class.key ++ 58 :: header.m_value

/-- The decoder finds the class of the header from its name, which ends at the first colon. -/
structure Readable (header : HttpHeader) : Prop where
  colon : 58 ∉ header.m_class.key
  type : tryStandardType header.m_class.key =
    match header.m_class with
    | .predefined type => some type
    | .custom _ => none

theorem encode_eq_line {header : HttpHeader} (h : header.m_class ≠ .predefined .Custom) :
    header.encode = .ok header.line := by
  simp [encode, getName_eq_key h, line, text, bind, Except.bind, pure, Except.pure]

theorem line_ne_nil (header : HttpHeader) : header.line ≠ [] := by simp [line]

theorem Readable.separate {header : HttpHeader} (h : header.Readable) :
    separate header.line 58 = (header.m_class.key, header.m_value) :=
  separate_append h.colon _

theorem Readable.lineClass {header : HttpHeader} (h : header.Readable) :
    lineClass header.line = header.m_class := by
  rw [Http.lineClass, h.separate, h.type]
  cases hclass : header.m_class with
  | predefined type => rfl
  | custom name => rfl

theorem Readable.addLine {header : HttpHeader} (h : header.Readable) (message : HttpMessage) :
    message.addLine header.line = message.setClass header.m_class header.m_value := by
  rw [HttpMessage.addLine, h.lineClass, h.separate]

theorem asString_clean (type : HttpHeader.Type) : ∀ c ∈ type.asString, c ≠ 0 ∧ c ≠ 13 := by
  have hall : ∀ t ∈ HttpHeader.Type.Custom :: HttpHeader.Type.predefined,
      t.asString.all (fun c => c != 0 && c != 13) = true := by decide +kernel
  have hmem : type ∈ HttpHeader.Type.Custom :: HttpHeader.Type.predefined := by
    by_cases h : type = .Custom
    · exact List.mem_cons.mpr (.inl h)
    · exact List.mem_cons_of_mem _ (Type.mem_predefined h)
  intro c hc
  simpa using List.all_eq_true.mp (hall type hmem) c hc

theorem readable_predefined {type : HttpHeader.Type} (h : type ≠ .Custom) (value : Bytes) :
    Readable ⟨.predefined type, value⟩ := by
  have hall : ∀ t ∈ HttpHeader.Type.predefined,
      58 ∉ t.asString ∧ tryStandardType t.asString = some t := by decide +kernel
  obtain ⟨hcolon, htype⟩ := hall type (Type.mem_predefined h)
  exact ⟨hcolon, htype⟩

end HttpHeader

namespace HttpMessage

def setAll (message : HttpMessage) (headers : List HttpHeader) : HttpMessage :=
  headers.foldl (fun message header => message.setClass header.m_class header.m_value) message

theorem setClass_rest (message : HttpMessage) (m_class : HttpHeader.Class) (value : Bytes) :
    (message.setClass m_class value).derived = message.derived ∧
      (message.setClass m_class value).m_majorVersion = message.m_majorVersion ∧
      (message.setClass m_class value).m_minorVersion = message.m_minorVersion ∧
      (message.setClass m_class value).m_body = message.m_body := by
  unfold setClass
  split <;> exact ⟨rfl, rfl, rfl, rfl⟩

theorem setAll_rest (message : HttpMessage) (headers : List HttpHeader) :
    (message.setAll headers).derived = message.derived ∧
      (message.setAll headers).m_majorVersion = message.m_majorVersion ∧
      (message.setAll headers).m_minorVersion = message.m_minorVersion ∧
      (message.setAll headers).m_body = message.m_body := by
  induction headers generalizing message with
  | nil => exact ⟨rfl, rfl, rfl, rfl⟩
  | cons header headers ih =>
    obtain ⟨h₁, h₂, h₃, h₄⟩ := setClass_rest message header.m_class header.m_value
    obtain ⟨i₁, i₂, i₃, i₄⟩ := ih (message.setClass header.m_class header.m_value)
    exact ⟨i₁.trans h₁, i₂.trans h₂, i₃.trans h₃, i₄.trans h₄⟩

theorem Indexed.setAll {message : HttpMessage} {headers : List HttpHeader} (h : message.Indexed)
    (hclass : ∀ header ∈ headers, header.m_class ≠ .predefined .Custom)
    (hnodup : (message.keys ++ headers.map (·.m_class.key)).Nodup) :
    (message.setAll headers).Indexed ∧
      (message.setAll headers).m_sequentialHeaders = message.m_sequentialHeaders ++ headers := by
  induction headers generalizing message with
  | nil => exact ⟨h, (List.append_nil _).symm⟩
  | cons header headers ih =>
    have hnew : header.m_class.key ∉ message.keys := by
      intro hmem
      exact (List.nodup_append.mp hnodup).2.2 _ hmem _ (by simp) rfl
    have hset := h.setClass_new header.m_value hnew
    have hkeys : (message.setClass header.m_class header.m_value).keys =
        message.keys ++ [header.m_class.key] := by
      rw [hset]
      simp [keys]
    obtain ⟨hindexed, hheaders⟩ := ih (h.setClass (hclass header (by simp)))
      (fun other hother => hclass other (by simp [hother])) (by rw [hkeys]; simpa using hnodup)
    refine ⟨hindexed, hheaders.trans ?_⟩
    rw [hset]
    simp

end HttpMessage

namespace HttpProtocolDecoder

theorem consume_header {message : HttpMessage} {header : HttpHeader} (h : header.Readable)
    (hlength : header.m_class ≠ .predefined .ContentLength) (tokens : List Bytes) :
    consume (.WaitingContentLength message) (header.line :: tokens) =
      consume (.WaitingContentLength (message.setClass header.m_class header.m_value)) tokens := by
  have hannounces : announcesLength header.line = false := by
    simp [announcesLength, h.lineClass, hlength]
  rw [consume, process_waitingContentLength message header.line_ne_nil, hannounces, h.addLine]
  rfl

theorem consume_headers {headers : List HttpHeader} (message : HttpMessage)
    (h : ∀ header ∈ headers, header.Readable ∧ header.m_class ≠ .predefined .ContentLength)
    (tokens : List Bytes) :
    consume (.WaitingContentLength message) (headers.map HttpHeader.line ++ tokens) =
      consume (.WaitingContentLength (message.setAll headers)) tokens := by
  induction headers generalizing message with
  | nil => rfl
  | cons header headers ih =>
    obtain ⟨hreadable, hlength⟩ := h header (by simp)
    rw [List.map_cons, List.cons_append, consume_header hreadable hlength]
    exact ih _ fun other hother => h other (by simp [hother])

theorem consume_contentLength {message : HttpMessage} {n : Nat} (hn : n < 2 ^ 32)
    (tokens : List Bytes) :
    consume (.WaitingContentLength message)
        (HttpHeader.line ⟨.predefined .ContentLength, asString n⟩ :: [] :: tokens) =
      consume (.ReadBody (message.setClass (.predefined .ContentLength) (asString n))
        (UInt32.ofNat n)) tokens := by
  have h : HttpHeader.Readable ⟨.predefined .ContentLength, asString n⟩ :=
    HttpHeader.readable_predefined (by decide) _
  have hannounces : announcesLength (HttpHeader.line ⟨.predefined .ContentLength, asString n⟩) := by
    rw [announcesLength, h.lineClass, h.separate, asString_natCast, isNumeric_encode]
    rfl
  have hsize : announcedSize (HttpHeader.line ⟨.predefined .ContentLength, asString n⟩) =
      UInt32.ofNat n := by
    rw [announcedSize, h.separate, asString_natCast, atol_encode (by omega), UInt32.ofInt]
    exact congrArg UInt32.ofNat (by omega)
  rw [consume, process_waitingContentLength message (HttpHeader.line_ne_nil _), hannounces, h.addLine,
    hsize]
  rfl

end HttpProtocolDecoder

end Coffee.Http
