import Coffee.Http.ContentLength

/-! # Messages whose bytes end a line

Nothing looks at the bytes of a name, a value or a phrase, so the head of an encoding has one line
for each header just when none of them holds CR LF.
-/

namespace Coffee.Http

open Coffee.Library Coffee.Basis

/-- The bytes hold the end of a line. -/
def EndsLine (s : Bytes) : Prop := [13, 10] <:+: s

instance (s : Bytes) : Decidable (EndsLine s) := inferInstanceAs (Decidable ([13, 10] <:+: s))

theorem not_endsLine {s : Bytes} (h : 13 ∉ s) : ¬ EndsLine s := Cut.not_infix_of_not_mem h

theorem endsLine_append {c : UInt8} (hcr : c ≠ 13) (hlf : c ≠ 10) (s rest : Bytes) :
    EndsLine (s ++ c :: rest) ↔ EndsLine s ∨ EndsLine rest :=
  Cut.infix_append_cons_iff hcr hlf

theorem not_endsLine_asString (number : Int) : ¬ EndsLine (asString number) := by
  refine not_endsLine ?_
  unfold asString
  split
  · rw [List.mem_cons, not_or]
    exact ⟨by decide, Decimal.not_mem_encode (by decide)⟩
  · exact Decimal.not_mem_encode (by decide)

/-- The lines of a block before the first empty one. -/
def headLines (block : Bytes) : List Bytes := (Cut.cut 13 10 block).takeWhile (· ≠ [])

namespace HttpMessage

/-- The head has one first line and one line for each header, or the call throws. -/
def Unsplit (message : HttpMessage) : Prop :=
  match HttpProtocolEncoder.apply message with
  | .ok (block, after) =>
    headLines block = after.encodeFirstLine :: after.m_sequentialHeaders.map HttpHeader.line
  | .error _ => True

instance (message : HttpMessage) : Decidable message.Unsplit :=
  match h : HttpProtocolEncoder.apply message with
  | .ok (block, after) =>
    decidable_of_iff (headLines block =
      after.encodeFirstLine :: after.m_sequentialHeaders.map HttpHeader.line) (by rw [Unsplit, h])
  | .error _ => .isTrue (by rw [Unsplit, h]; trivial)

/-- The phrase is a C string. -/
structure Unbroken (message : HttpMessage) : Prop where
  firstLine : match message.derived with
    | .request _ url => ¬ EndsLine url.encode
    | .response _ description => ¬ EndsLine (cStr description)
  headers : ∀ header ∈ message.m_sequentialHeaders,
    ¬ EndsLine header.m_class.key ∧ ¬ EndsLine header.m_value

variable {message : HttpMessage}

theorem line_endsLine (header : HttpHeader) :
    EndsLine header.line ↔ EndsLine header.m_class.key ∨ EndsLine header.m_value :=
  endsLine_append (by decide) (by decide) _ _

theorem reason_endsLine (code : Int32) (description : Bytes) :
    EndsLine (HttpResponse.reason code description) ↔ EndsLine (cStr description) := by
  cases description with
  | nil =>
    obtain ⟨⟨words, hreason, hwords⟩, -⟩ := reason_phrase code (⟨[], rfl, by simp⟩ : IsPhrase [])
    refine iff_of_false (not_endsLine ?_) (by decide)
    rw [hreason]
    exact not_mem_intercalate (fun word hword hc => ((hwords word hword).2 13 hc).2.1 rfl) (by decide)
  | cons c description => rfl

theorem encodeFirstLine_endsLine (message : HttpMessage) : EndsLine message.encodeFirstLine ↔
    match message.derived with
    | .request _ url => EndsLine url.encode
    | .response _ description => EndsLine (cStr description) := by
  obtain ⟨-, -, -, hversion⟩ := encodeVersion_word message
  have hblank : ∀ s rest, EndsLine (s ++ text " " ++ rest) ↔ EndsLine s ∨ EndsLine rest := by
    intro s rest
    rw [List.append_assoc]
    exact endsLine_append (by decide) (by decide) s rest
  unfold encodeFirstLine
  cases message.derived with
  | request method url =>
    have hmethod := not_endsLine (method_word method).1.2.2.2
    simp only [hblank, hmethod, not_endsLine hversion, false_or, or_false]
  | response code description =>
    simp only [hblank, not_endsLine_asString, not_endsLine hversion, false_or, reason_endsLine]

theorem encodeFirstLine_ne_nil (message : HttpMessage) : message.encodeFirstLine ≠ [] := by
  obtain ⟨hversion, -⟩ := encodeVersion_word message
  unfold encodeFirstLine
  cases message.derived with
  | request method url => simp [hversion]
  | response code description => simp [hversion]

theorem unbroken_iff : message.Unbroken ↔ ¬ EndsLine message.encodeFirstLine ∧
    ∀ header ∈ message.m_sequentialHeaders, ¬ EndsLine header.line := by
  rw [encodeFirstLine_endsLine]
  simp only [line_endsLine, not_or]
  constructor
  · rintro ⟨hfirst, hheaders⟩
    refine ⟨?_, hheaders⟩
    cases hderived : message.derived <;> simpa [hderived] using hfirst
  · rintro ⟨hfirst, hheaders⟩
    refine ⟨?_, hheaders⟩
    cases hderived : message.derived <;> simpa [hderived] using hfirst

/-- The header that the encoder adds ends no line. -/
theorem Indexed.unbroken_completed (h : message.Indexed) :
    message.completed.Unbroken ↔ message.Unbroken := by
  unfold HttpMessage.completed
  split
  · rename_i hnew
    have hset : message.setClass (.predefined .ContentLength) (asString message.m_body.length) = _ :=
      h.setClass_new _ hnew.2
    rw [hset]
    constructor
    · rintro ⟨hfirst, hheaders⟩
      exact ⟨hfirst, fun header hheader => hheaders header (List.mem_append_left _ hheader)⟩
    · rintro ⟨hfirst, hheaders⟩
      refine ⟨hfirst, fun header hheader => ?_⟩
      rcases List.mem_append.mp hheader with hheader | hheader
      · exact hheaders header hheader
      · obtain rfl := List.mem_singleton.mp hheader
        refine ⟨?_, not_endsLine_asString message.m_body.length⟩
        exact not_endsLine fun hcr => (HttpHeader.asString_clean .ContentLength 13 hcr).2 rfl
  · rfl

theorem headLines_rendering (message : HttpMessage) : headLines message.rendering =
    message.encodeFirstLine :: message.m_sequentialHeaders.map HttpHeader.line ↔
      message.Unbroken := by
  have hne : ∀ line ∈ message.encodeFirstLine :: message.m_sequentialHeaders.map HttpHeader.line,
      line ≠ [] := by
    refine List.forall_mem_cons.mpr ⟨message.encodeFirstLine_ne_nil, ?_⟩
    intro line hline
    obtain ⟨header, -, rfl⟩ := List.mem_map.mp hline
    exact header.line_ne_nil
  have hrendering : message.rendering = (message.encodeFirstLine ::
      message.m_sequentialHeaders.map HttpHeader.line).flatMap (· ++ [13, 10]) ++
        13 :: 10 :: message.m_body := by
    simp [rendering, newLineCharacters]
  rw [headLines, hrendering, Cut.takeWhile_cut_eq_iff (by decide) hne, unbroken_iff,
    List.forall_mem_cons, List.forall_mem_map]
  rfl

/-- The head of an encoding has one first line and one line for each header exactly when the first
line, the names and the values hold no CR LF. -/
theorem Built.unsplit_iff (h : message.Built) : message.Unsplit ↔ message.Unbroken := by
  have hindexed := h.indexed
  rw [Unsplit, hindexed.apply_eq]
  exact (headLines_rendering _).trans hindexed.unbroken_completed

theorem unsplit_answer : (answer [13, 10]).Unsplit :=
  (Built.unsplit_iff (answer_built [13, 10])).mpr
    ⟨show ¬ EndsLine (cStr (text "All fine")) by decide +kernel, by decide +kernel⟩

/-- A value with CR LF makes a header of its own. -/
theorem not_unsplit : ¬ ∀ message : HttpMessage, message.Built → message.Unsplit := by
  intro h
  have hsplit := h _ (.setCustomHeader (.response 1 1 200 (text "OK")) (text "X")
    (text "a" ++ [13, 10] ++ text "Set-Cookie:b"))
  exact absurd hsplit (by decide +kernel)

end HttpMessage

end Coffee.Http
