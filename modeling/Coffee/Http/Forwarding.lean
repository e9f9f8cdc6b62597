import Coffee.Http.BodyLength
import Coffee.Http.HeaderStore
import Coffee.Http.UrlLines

/-! # Passing a message on

What the decoder hands over can be encoded and sent again. Its headers come back as they are, each
on one line; the first line comes back where its number or its URL does, and the body where the
header that announces it is a number still.
-/

namespace Coffee.Http

open Coffee.Library Coffee.Basis HttpProtocolState

theorem not_endsLine_intercalate {words : List Bytes} {c : UInt8} (hcr : c ≠ 13) (hlf : c ≠ 10)
    (h : ∀ w ∈ words, ¬ EndsLine w) : ¬ EndsLine ([c].intercalate words) := by
  induction words with
  | nil => exact not_endsLine List.not_mem_nil
  | cons w words ih =>
    obtain ⟨hw, hwords⟩ := List.forall_mem_cons.mp h
    cases words with
    | nil => simpa [List.intercalate] using hw
    | cons v words =>
      rw [List.intercalate_cons_of_ne_nil (by simp), List.append_assoc]
      exact not_endsLine_append_cons hcr hlf hw (ih hwords)

theorem mem_split {s w : Bytes} {c : UInt8} (h : w ∈ split s c) : w ≠ [] ∧ c ∉ w ∧ 0 ∉ w := by
  obtain ⟨hmem, hne⟩ := List.mem_filter.mp h
  refine ⟨by simpa using hne, not_mem_of_mem_splitOn hmem, fun hzero => ?_⟩
  have hcStr := List.mem_takeWhile_imp (splitOn_subset hmem hzero)
  simp at hcStr

theorem tryMessage_cases {line : Bytes} {message : HttpMessage}
    (h : tryMessage line = .ok (some message)) :
    (∃ method url, ∃ word ∈ split line 32, URLParser.build word = .ok url ∧
        message.derived = .request method url) ∨
      ∃ code words, words ≠ [] ∧ words ⊆ split line 32 ∧
        message.derived = .response code ([32].intercalate words) := by
  unfold tryMessage at h
  split at h
  · rename_i response hresponse
    cases h
    refine .inr ?_
    unfold tryResponse at hresponse
    split at hresponse
    · rename_i version statusCode description rest hwords
      refine ⟨atoi statusCode, description :: rest, by simp, ?_, ?_⟩
      · rw [hwords]
        exact fun w hw => List.mem_cons_of_mem _ (List.mem_cons_of_mem _ hw)
      · grind [HttpResponse.instantiate, HttpMessage.instantiate]
    · cases hresponse
  · unfold tryRequest at h
    split at h
    · rename_i methodName word version rest hwords
      split at h
      · rename_i method httpVersion _ _
        simp only [HttpRequest.instantiate, bind, Except.bind, pure, Except.pure] at h
        cases hbuild : URLParser.build word with
        | error ex =>
          rw [hbuild] at h
          cases h
        | ok url =>
          rw [hbuild] at h
          cases h
          exact .inl ⟨method, url, word, by rw [hwords]; simp, hbuild, rfl⟩
      · cases h
    · cases h

namespace HttpMessage

/-- The encoding of the message is decoded as the message itself. -/
def Forwards (message : HttpMessage) : Prop :=
  ∃ sent after, HttpProtocolEncoder.apply message = .ok (sent, after) ∧
    HttpProtocolDecoder.apply sent = .ok message

/-- The URL, or the status code, can be read where the encoder writes it. -/
def Legible (message : HttpMessage) : Prop :=
  match message.derived with
  | .request _ url => URLParser.build url.encode = .ok url
  | .response code _ => 0 ≤ code.toInt

/-- There is no body, or its header is a number. -/
def Measured (message : HttpMessage) : Prop :=
  message.m_body = [] ∨ ∃ value, message.getHeaderValue .ContentLength = .ok value ∧
    isNumeric value = true

def FirstRead (derived : Derived) : Prop :=
  match derived with
  | .request _ url => ∃ word, URLParser.build word = .ok url ∧ ¬ EndsLine word ∧ 32 ∉ word ∧ 0 ∉ word
  | .response _ description => ∃ words, words ≠ [] ∧ description = [32].intercalate words ∧
      ∀ w ∈ words, w ≠ [] ∧ 32 ∉ w ∧ 0 ∉ w ∧ ¬ EndsLine w

/-- A message whose head was read from lines. -/
structure Carried (message : HttpMessage) : Prop where
  indexed : message.Indexed
  directory : message.m_directory = message.keys.zipIdx
  lines : ∀ header ∈ message.m_sequentialHeaders, header.Readable ∧ ¬ EndsLine header.line

variable {message : HttpMessage}

theorem firstRead_of_tryMessage {line : Bytes} (h : tryMessage line = .ok (some message))
    (hline : ¬ EndsLine line) : FirstRead message.derived := by
  have hword : ∀ w ∈ split line 32, w ≠ [] ∧ 32 ∉ w ∧ 0 ∉ w ∧ ¬ EndsLine w := fun w hw =>
    ⟨(mem_split hw).1, (mem_split hw).2.1, (mem_split hw).2.2,
      not_endsLine_of_isInfix hline (isInfix_split hw)⟩
  rcases tryMessage_cases h with ⟨method, url, word, hmem, hbuild, hderived⟩ |
    ⟨code, words, hne, hwords, hderived⟩
  · obtain ⟨-, hblank, hnul, hends⟩ := hword word hmem
    rw [hderived]
    exact ⟨word, hbuild, hends, hblank, hnul⟩
  · rw [hderived]
    exact ⟨words, hne, rfl, fun w hw => hword w (hwords hw)⟩

theorem carried_instantiate (derived : Derived) (major minor : UInt16) :
    (instantiate derived major minor).Carried :=
  ⟨indexed_instantiate derived major minor, rfl, fun _ h => absurd h List.not_mem_nil⟩

theorem readable_lineClass {line : Bytes} (hline : ¬ EndsLine line) (value : Bytes) :
    HttpHeader.Readable ⟨lineClass line, value⟩ ∧ ¬ EndsLine (lineClass line).key := by
  unfold lineClass
  cases htype : tryStandardType (separate line 58).1 with
  | some type =>
    refine ⟨HttpHeader.readable_predefined (tryStandardType_ne_custom htype) value, ?_⟩
    exact not_endsLine fun hcr => (HttpHeader.asString_clean type 13 hcr).2 rfl
  | none => exact ⟨⟨(separate_cases line 58).1, htype⟩,
      not_endsLine_of_isInfix hline (isInfix_separate line 58).1⟩

theorem Carried.addLine (h : message.Carried) {line : Bytes} (hline : ¬ EndsLine line) :
    (message.addLine line).Carried := by
  obtain ⟨hreadable, hkey⟩ := readable_lineClass hline (separate line 58).2
  have hvalue : ¬ EndsLine (separate line 58).2 := not_endsLine_of_isInfix hline (isInfix_separate line 58).2
  have hkeys := h.indexed.keys_setClass (lineClass line) (separate line 58).2
  refine ⟨h.indexed.setClass (lineClass_ne_custom line), ?_, ?_⟩
  · rw [HttpMessage.addLine, hkeys]
    split
    · rename_i hknown
      obtain ⟨dd, -, hset⟩ := h.indexed.setClass_known (separate line 58).2 hknown
      rw [hset]
      exact h.directory
    · rename_i hnew
      rw [h.indexed.setClass_new _ hnew, List.zipIdx_append, ← h.directory]
      simp [keys]
  · rw [HttpMessage.addLine]
    by_cases hknown : (lineClass line).key ∈ message.keys
    · obtain ⟨dd, -, hset⟩ := h.indexed.setClass_known (separate line 58).2 hknown
      intro header hheader
      rw [hset] at hheader
      obtain ⟨i, hi⟩ := List.mem_iff_getElem?.mp hheader
      rw [List.getElem?_modify] at hi
      obtain ⟨old, hold, rfl⟩ := Option.map_eq_some_iff.mp hi
      obtain ⟨hold, hends⟩ := h.lines old (List.mem_of_getElem? hold)
      split
      · rw [line_endsLine, not_or] at hends
        refine ⟨⟨by simpa using hold.colon, by simpa using hold.type⟩, ?_⟩
        rw [line_endsLine, setValue_value, HttpHeader.setValue_class]
        refine not_or.mpr ⟨hends.1, ?_⟩
        unfold joinValue
        split
        · exact hvalue
        · rw [List.append_assoc]
          exact not_endsLine_append_cons (by decide) (by decide) hends.2 hvalue
      · exact ⟨hold, hends⟩
    · rw [h.indexed.setClass_new _ hknown]
      refine List.forall_mem_append.mpr ⟨h.lines, ?_⟩
      rw [List.forall_mem_singleton, line_endsLine]
      exact ⟨hreadable, not_or.mpr ⟨hkey, hvalue⟩⟩

theorem Carried.addLines {lines : List Bytes} (h : message.Carried)
    (hlines : ∀ line ∈ lines, ¬ EndsLine line) : (message.addLines lines).Carried := by
  induction lines generalizing message with
  | nil => exact h
  | cons line lines ih =>
    obtain ⟨hline, hlines⟩ := List.forall_mem_cons.mp hlines
    exact ih (h.addLine hline) hlines

theorem Carried.setBody (h : message.Carried) (body : Bytes) : (message.setBody body).Carried :=
  ⟨⟨h.indexed.lookup, h.indexed.nodup, h.indexed.named⟩, h.directory, h.lines⟩

theorem addLines_lines {headers : List HttpHeader} (h : ∀ header ∈ headers, header.Readable) :
    message.addLines (headers.map HttpHeader.line) = message.setAll headers := by
  induction headers generalizing message with
  | nil => rfl
  | cons header headers ih =>
    obtain ⟨hheader, hheaders⟩ := List.forall_mem_cons.mp h
    rw [List.map_cons, HttpMessage.addLines, List.foldl_cons, hheader.addLine]
    exact ih hheaders

theorem eq_setBody {other : HttpMessage} {body : Bytes} (hderived : other.derived = message.derived)
    (hmajor : other.m_majorVersion = message.m_majorVersion)
    (hminor : other.m_minorVersion = message.m_minorVersion)
    (hheaders : other.m_sequentialHeaders = message.m_sequentialHeaders)
    (hdirectory : other.m_directory = message.m_directory) (hbody : other.m_body = body) :
    other = message.setBody body := by
  cases other
  rw [setBody, mk.injEq]
  exact ⟨hderived, hmajor, hminor, hheaders, hdirectory, hbody⟩

theorem Carried.rebuild (h : message.Carried) :
    (instantiate message.derived message.m_majorVersion message.m_minorVersion).addLines
        (message.m_sequentialHeaders.map HttpHeader.line) = message.setBody [] := by
  have hempty := carried_instantiate message.derived message.m_majorVersion message.m_minorVersion
  have hcarried := hempty.addLines
    (List.forall_mem_map.mpr fun header hheader => (h.lines header hheader).2)
  rw [addLines_lines fun header hheader => (h.lines header hheader).1] at hcarried ⊢
  obtain ⟨hderived, hmajor, hminor, hbody⟩ := (instantiate message.derived message.m_majorVersion
    message.m_minorVersion).setAll_rest message.m_sequentialHeaders
  have hheaders := (hempty.indexed.setAll h.indexed.named h.indexed.nodup).2
  have hdirectory := hcarried.directory
  rw [keys, hheaders] at hdirectory
  exact eq_setBody hderived hmajor hminor hheaders (hdirectory.trans h.directory.symm) hbody

/-! ## The length of the body -/

theorem announcesLength_line {header : HttpHeader} (h : header.Readable) :
    announcesLength header.line = true ↔
      header.m_class = .predefined .ContentLength ∧ isNumeric header.m_value = true := by
  rw [announcesLength, h.lineClass, h.separate]
  simp

theorem Carried.class_eq (h : message.Carried) {header : HttpHeader}
    (hheader : header ∈ message.m_sequentialHeaders)
    (hkey : header.m_class.key = HttpHeader.Type.ContentLength.asString) :
    header.m_class = .predefined .ContentLength := by
  have htype := (h.lines header hheader).1.type
  have hlength : tryStandardType HttpHeader.Type.ContentLength.asString = some .ContentLength := by
    decide +kernel
  rw [hkey, hlength] at htype
  cases hclass : header.m_class with
  | predefined type =>
    rw [hclass] at htype
    cases htype
    rfl
  | custom name =>
    rw [hclass] at htype
    cases htype

theorem Indexed.value?_mem (h : message.Indexed) {name value : Bytes}
    (hvalue : message.value? name = some value) :
    ∃ header ∈ message.m_sequentialHeaders, header.m_class.key = name ∧ header.m_value = value := by
  obtain ⟨header, hheader, rfl⟩ := Option.map_eq_some_iff.mp hvalue
  obtain ⟨dd, hdd, hget⟩ := Option.bind_eq_some_iff.mp hheader
  rw [h.lookup] at hdd
  obtain ⟨hlt, hname⟩ := idxOf?_lt hdd
  refine ⟨header, List.mem_of_getElem? hget, ?_, rfl⟩
  obtain ⟨_, rfl⟩ := List.getElem?_eq_some_iff.mp hget
  rw [← hname]
  simp [keys]

theorem Indexed.value?_of_mem (h : message.Indexed) {header : HttpHeader}
    (hheader : header ∈ message.m_sequentialHeaders) :
    message.value? header.m_class.key = some header.m_value := by
  obtain ⟨i, hi⟩ := List.mem_iff_getElem?.mp hheader
  exact h.value?_getElem hi

theorem Carried.find_announces (h : message.Carried) (value : Bytes) :
    (∃ line, (message.m_sequentialHeaders.map HttpHeader.line).find? announcesLength = some line ∧
        (separate line 58).2 = value) ↔
      message.value? HttpHeader.Type.ContentLength.asString = some value ∧
        isNumeric value = true := by
  constructor
  · rintro ⟨line, hfind, rfl⟩
    obtain ⟨header, hheader, rfl⟩ := List.mem_map.mp (List.mem_of_find?_eq_some hfind)
    have hreadable := (h.lines header hheader).1
    obtain ⟨hclass, hnumeric⟩ := (announcesLength_line hreadable).mp (List.find?_some hfind)
    have hvalue := h.indexed.value?_of_mem hheader
    rw [hclass] at hvalue
    rw [hreadable.separate]
    exact ⟨hvalue, hnumeric⟩
  · rintro ⟨hvalue, hnumeric⟩
    obtain ⟨header, hheader, hkey, rfl⟩ := h.indexed.value?_mem hvalue
    have hannounces := (announcesLength_line (h.lines header hheader).1).mpr
      ⟨h.class_eq hheader hkey, hnumeric⟩
    cases hfind : (message.m_sequentialHeaders.map HttpHeader.line).find? announcesLength with
    | none =>
      have hnone := List.find?_eq_none.mp hfind header.line (List.mem_map_of_mem hheader)
      exact absurd hannounces hnone
    | some line =>
      refine ⟨line, rfl, ?_⟩
      obtain ⟨other, hother, rfl⟩ := List.mem_map.mp (List.mem_of_find?_eq_some hfind)
      have hreadable := (h.lines other hother).1
      obtain ⟨hclass, -⟩ := (announcesLength_line hreadable).mp (List.find?_some hfind)
      have hsame := h.indexed.value?_of_mem hother
      rw [hclass] at hsame
      rw [hreadable.separate]
      exact Option.some.inj (hsame.symm.trans hvalue)

theorem Indexed.value?_addLine (h : message.Indexed) (line name : Bytes) :
    (message.addLine line).value? name =
      if name = (lineClass line).key then
        some (joinValue ((message.value? name).getD []) (separate line 58).2)
      else message.value? name := h.value?_setClass name

/-- A value that is there stays, or is joined with what is no number. -/
theorem Indexed.value_of_numeric (h : message.Indexed) {lines : List Bytes} {old value : Bytes}
    (hold : message.value? HttpHeader.Type.ContentLength.asString = some old) (hne : old ≠ [])
    (hvalue : (message.addLines lines).value? HttpHeader.Type.ContentLength.asString = some value)
    (hnumeric : isNumeric value = true) : value = old := by
  induction lines generalizing message old with
  | nil => exact Option.some.inj (hvalue.symm.trans hold)
  | cons line lines ih =>
    have hstep := h.value?_addLine line HttpHeader.Type.ContentLength.asString
    have hempty : ¬ old.isEmpty := by simpa using hne
    rw [hold, Option.getD_some, joinValue, if_neg hempty] at hstep
    have hrest := @ih (message.addLine line)
    split at hstep
    · have hjoined := hrest (h.setClass (lineClass_ne_custom line)) hstep (by simp [text]) hvalue
      rw [hjoined] at hnumeric
      exact absurd hnumeric (not_isNumeric_joined _ _)
    · exact hrest (h.setClass (lineClass_ne_custom line)) hstep hne hvalue

/-- Where the header is a number, the first line that announced a length did announce it. -/
theorem Indexed.announced_value (h : message.Indexed) {lines : List Bytes} {line value : Bytes}
    (hfind : lines.find? announcesLength = some line)
    (hvalue : (message.addLines lines).value? HttpHeader.Type.ContentLength.asString = some value)
    (hnumeric : isNumeric value = true) : value = (separate line 58).2 := by
  induction lines generalizing message with
  | nil => cases hfind
  | cons front lines ih =>
    have hstep := h.value?_addLine front HttpHeader.Type.ContentLength.asString
    rw [List.find?_cons] at hfind
    split at hfind
    · rename_i hannounces
      cases hfind
      obtain ⟨hclass, hnumber⟩ : lineClass line = .predefined .ContentLength ∧
          isNumeric (separate line 58).2 = true := by
        simpa [announcesLength] using hannounces
      have hkey : HttpHeader.Type.ContentLength.asString = (lineClass line).key := by
        rw [hclass]
        rfl
      rw [if_pos hkey] at hstep
      have hne : joinValue ((message.value? HttpHeader.Type.ContentLength.asString).getD [])
          (separate line 58).2 ≠ [] := by
        unfold joinValue
        split
        · exact (isNumeric_iff.mp hnumber).1
        · simp [text]
      have hkept := Indexed.value_of_numeric (h.setClass (lineClass_ne_custom line)) hstep hne hvalue
        hnumeric
      rw [hkept] at hnumeric
      rw [hkept]
      unfold joinValue at hnumeric ⊢
      split
      · rfl
      · rw [if_neg (by assumption)] at hnumeric
        exact absurd hnumeric (not_isNumeric_joined _ _)
    · exact ih (h.setClass (lineClass_ne_custom front)) hfind hvalue

/-! ## The first line -/

theorem tryMessage_request_eq {method : HttpRequest.Method} {url : URL} {word : Bytes}
    (hderived : message.derived = .request method url) (hbuild : URLParser.build word = .ok url)
    (hblank : 32 ∉ word) (hnul : 0 ∉ word) : tryMessage message.encodeFirstLine =
      (URLParser.build url.encode).map fun url' => some (.instantiate (.request method url')
        message.m_majorVersion message.m_minorVersion) := by
  obtain ⟨⟨hmethod, hmblank, hmnul, -⟩, hhttp⟩ := method_word method
  obtain ⟨hversion, hvblank, hvnul, -⟩ := encodeVersion_word message
  have hline : message.encodeFirstLine =
      [32].intercalate [method.asString, url.encode, message.encodeVersion] := by
    rw [encodeFirstLine, hderived]
    simp [List.intercalate, text]
  have hsplit : split message.encodeFirstLine 32 =
      [method.asString, url.encode, message.encodeVersion] := by
    rw [hline]
    refine split_intercalate (by simp) (fun w hw => ?_) (by decide)
    simp only [List.mem_cons, List.not_mem_nil, or_false] at hw
    rcases hw with rfl | rfl | rfl
    · exact ⟨hmethod, hmblank, hmnul⟩
    · exact ⟨URL.encode_ne_nil hbuild, URL.not_mem_encode hbuild hblank (by decide),
        URL.not_mem_encode hbuild hnul (by decide)⟩
    · exact ⟨hversion, hvblank, hvnul⟩
  rw [tryMessage, hsplit]
  simp only [tryResponse, hhttp, tryRequest, tryMethod_asString, tryHttpVersion_encodeVersion,
    HttpRequest.instantiate, bind, Except.bind, pure, Except.pure, UInt16.toUInt16_toUInt32]
  cases URLParser.build url.encode <;> rfl

/-- A negative number is no status code, and a version no method. -/
theorem tryMessage_negative {code : Int32} {words : List Bytes} (hcode : code.toInt < 0)
    (hne : words ≠ []) (hwords : ∀ w ∈ words, w ≠ [] ∧ 32 ∉ w ∧ 0 ∉ w) :
    tryMessage (message.encodeVersion ++ text " " ++ asString code.toInt ++ text " " ++
      [32].intercalate words) = .ok none := by
  obtain ⟨hversion, hvblank, hvnul, -⟩ := encodeVersion_word message
  have hnumber : asString code.toInt = 45 :: Decimal.encode code.toInt.natAbs := by
    rw [asString, if_pos hcode]
  obtain ⟨w, rest, rfl⟩ := List.exists_cons_of_ne_nil hne
  have hline : message.encodeVersion ++ text " " ++ asString code.toInt ++ text " " ++
      [32].intercalate (w :: rest) =
      [32].intercalate (message.encodeVersion :: asString code.toInt :: w :: rest) := by
    simp [List.intercalate, text]
  have hmethod : tryMethod message.encodeVersion = none := by
    refine List.find?_eq_none.mpr fun method _ => ?_
    rw [strcasecmp, cStr_eq_self hvnul, encodeVersion]
    cases method <;> simp [HttpRequest.Method.asString, text, cStr, toLower]
  rw [tryMessage, hline, split_intercalate (by simp) ?_ (by decide)]
  · simp [tryResponse, encodeVersion_http, tryHttpVersion_encodeVersion, hnumber, isNumeric,
      Decimal.isDigit, tryRequest, hmethod, pure, Except.pure]
  · intro v hv
    simp only [List.mem_cons] at hv
    rcases hv with rfl | rfl | hv
    · exact ⟨hversion, hvblank, hvnul⟩
    · rw [hnumber]
      simp only [List.mem_cons, not_or]
      exact ⟨by simp, ⟨by decide, Decimal.not_mem_encode (by decide)⟩,
        ⟨by decide, Decimal.not_mem_encode (by decide)⟩⟩
    · exact hwords v (List.mem_cons.mpr hv)

/-- A first line that was read is read again as the same, as another one, or is no first line. -/
theorem tryMessage_encodeFirstLine (h : FirstRead message.derived) :
    ¬ EndsLine message.encodeFirstLine ∧
      (message.Legible → tryMessage message.encodeFirstLine = .ok (some (.instantiate message.derived
        message.m_majorVersion message.m_minorVersion))) ∧
      (¬ message.Legible → ∀ other, tryMessage message.encodeFirstLine = .ok (some other) →
        other.derived ≠ message.derived) := by
  rw [encodeFirstLine_endsLine]
  unfold Legible
  cases hderived : message.derived with
  | request method url =>
    rw [hderived] at h
    obtain ⟨word, hbuild, hends, hblank, hnul⟩ := h
    rw [tryMessage_request_eq hderived hbuild hblank hnul]
    refine ⟨URL.not_endsLine_encode hbuild hends, fun hlegible => by rw [hlegible]; rfl, ?_⟩
    intro hillegible other hother hsame
    cases hagain : URLParser.build url.encode with
    | error ex =>
      rw [hagain] at hother
      cases hother
    | ok url' =>
      rw [hagain] at hother
      cases hother
      cases hsame
      exact hillegible hagain
  | response code description =>
    rw [hderived] at h
    obtain ⟨words, hne, rfl, hwords⟩ := h
    have hnul : 0 ∉ [32].intercalate words :=
      not_mem_intercalate (fun w hw => (hwords w hw).2.2.1) (by decide)
    have hwords' : ∀ w ∈ words, w ≠ [] ∧ 32 ∉ w ∧ 0 ∉ w := fun w hw =>
      ⟨(hwords w hw).1, (hwords w hw).2.1, (hwords w hw).2.2.1⟩
    have hreason : HttpResponse.reason code ([32].intercalate words) = [32].intercalate words := by
      have hsome : ([32].intercalate words).isEmpty = false := by
        obtain ⟨w, rest, rfl⟩ := List.exists_cons_of_ne_nil hne
        have hw := (hwords w List.mem_cons_self).1
        cases rest <;> simp [List.intercalate, hw]
      rw [HttpResponse.reason, hsome, if_neg Bool.false_ne_true, cStr_eq_self hnul]
    have hline : message.encodeFirstLine = message.encodeVersion ++ text " " ++
        asString code.toInt ++ text " " ++ [32].intercalate words := by
      rw [encodeFirstLine, hderived, ← hreason]
      simp only [hreason]
    rw [hline]
    refine ⟨?_, fun hcode => tryMessage_response hcode hne hwords', ?_⟩
    · dsimp only
      rw [cStr_eq_self hnul]
      exact not_endsLine_intercalate (by decide) (by decide) fun w hw => (hwords w hw).2.2.2
    · intro hcode other hother
      rw [tryMessage_negative (by simpa using hcode) hne hwords'] at hother
      cases hother

/-! ## Blocks that were accepted -/

theorem addLines_rest (message : HttpMessage) (lines : List Bytes) :
    (message.addLines lines).derived = message.derived ∧
      (message.addLines lines).m_sequentialHeaders.length ≤
        message.m_sequentialHeaders.length + lines.length := by
  induction lines generalizing message with
  | nil => exact ⟨rfl, Nat.le_refl _⟩
  | cons line lines ih =>
    obtain ⟨hderived, hlength⟩ := ih (message.addLine line)
    refine ⟨hderived.trans (setClass_rest message _ _).1, ?_⟩
    have hone : (message.addLine line).m_sequentialHeaders.length ≤
        message.m_sequentialHeaders.length + 1 := by
      rw [HttpMessage.addLine, setClass]
      split <;> simp
    rw [List.length_cons]
    exact hlength.trans (by omega)

theorem Indexed.mem_keys_addLines (h : message.Indexed) {lines : List Bytes} {name : Bytes}
    (hname : name ∈ message.keys ∨ ∃ line ∈ lines, (lineClass line).key = name) :
    name ∈ (message.addLines lines).keys := by
  induction lines generalizing message with
  | nil => exact hname.resolve_right (by simp)
  | cons line lines ih =>
    refine ih (h.setClass (lineClass_ne_custom line)) ?_
    rw [HttpMessage.addLine, h.mem_keys_setClass]
    rcases hname with hname | ⟨other, hother, hkey⟩
    · exact .inl (.inr hname)
    · rcases List.mem_cons.mp hother with rfl | hother
      · exact .inl (.inl hkey.symm)
      · exact .inr ⟨other, hother, hkey⟩

theorem findMessage_mem {lines rest : List (Bytes × Bytes)}
    (h : findMessage lines = .ok (some (message, rest))) :
    ∃ pair ∈ lines, tryMessage pair.1 = .ok (some message) := by
  induction lines with
  | nil => cases h
  | cons pair lines ih =>
    simp only [findMessage, bind, Except.bind, pure, Except.pure] at h
    cases hmessage : tryMessage pair.1 with
    | error ex =>
      rw [hmessage] at h
      cases h
    | ok result =>
      rw [hmessage] at h
      cases result with
      | none =>
        obtain ⟨other, hother, htry⟩ := ih h
        exact ⟨other, List.mem_cons_of_mem _ hother, htry⟩
      | some front =>
        cases h
        exact ⟨pair, List.mem_cons_self, hmessage⟩

/-- A body is one line of the size that a line of the head announced. -/
structure Sized (message : HttpMessage) (line : Bytes) : Prop where
  key : HttpHeader.Type.ContentLength.asString ∈ message.keys
  length : message.m_body.length = (announcedSize line).toNat
  value : ∀ value, message.value? HttpHeader.Type.ContentLength.asString = some value →
    isNumeric value = true → value = (separate line 58).2

theorem accepted {dataBlock : Bytes} (h : HttpProtocolDecoder.apply dataBlock = .ok message) :
    FirstRead message.derived ∧ message.Carried ∧ ¬ EndsLine message.m_body ∧
      (message.m_body = [] ∨ ∃ line, message.Sized line) := by
  cases hfind : findMessage (Cut.lines 13 10 dataBlock) with
  | error ex =>
    exact absurd h (HttpProtocolDecoder.apply_not_found (by rw [MessageHead.ofBlock, hfind]) _)
  | ok found =>
    cases found with
    | none =>
      exact absurd h (HttpProtocolDecoder.apply_not_found (by rw [MessageHead.ofBlock, hfind]) _)
    | some found =>
      obtain ⟨front, rest⟩ := found
      obtain ⟨body, hbody, rfl⟩ := (HttpProtocolDecoder.apply_found hfind message).mp h
      obtain ⟨⟨derived, major, minor, rfl⟩, hsuffix⟩ := HttpProtocolDecoder.findMessage_fresh hfind
      have hwhole : ∀ pair ∈ Cut.lines 13 10 dataBlock, ¬ EndsLine pair.1 := by
        intro pair hpair
        refine Cut.not_infix_of_mem_cut dataBlock pair.1 ?_
        rw [← Cut.lines_map_fst]
        exact List.mem_map_of_mem hpair
      have hlines : ∀ line ∈ (MessageHead.ofLines rest).lines, ¬ EndsLine line := by
        intro line hline
        obtain ⟨pair, hpair, rfl⟩ := List.mem_map.mp hline
        exact hwhole pair (hsuffix.subset (List.takeWhile_subset _ hpair))
      obtain ⟨pair, hpair, hpairMessage⟩ := findMessage_mem hfind
      have hfront := firstRead_of_tryMessage hpairMessage (hwhole pair hpair)
      have hindexed := indexed_instantiate derived major minor
      refine ⟨?_, ((carried_instantiate derived major minor).addLines hlines).setBody body, ?_⟩
      · rw [setBody, (addLines_rest _ _).1]
        exact hfront
      unfold MessageHead.body? at hbody
      split at hbody
      · cases hbody
        exact ⟨not_endsLine List.not_mem_nil, .inl rfl⟩
      · rename_i line hline
        split at hbody
        · cases hbody
          exact ⟨not_endsLine List.not_mem_nil, .inl rfl⟩
        · rename_i piece pieces hcut
          obtain ⟨hlength, hsome⟩ := Option.ite_none_right_eq_some.mp hbody
          cases hsome
          have hpiece : ¬ EndsLine body :=
            Cut.not_infix_of_mem_cut (MessageHead.ofLines rest).payload body (by simp [hcut])
          refine ⟨hpiece, .inr ⟨line, ?_, hlength, fun value hvalue hnumeric =>
            hindexed.announced_value hline hvalue hnumeric⟩⟩
          refine hindexed.mem_keys_addLines (.inr ⟨line, List.mem_of_find?_eq_some hline, ?_⟩)
          have hclass : lineClass line = .predefined .ContentLength := by
            simpa [announcesLength] using
              And.left (by simpa [announcesLength] using List.find?_some hline)
          rw [hclass]
          rfl

/-- What the decoder makes of the lines behind a first line and of a payload. -/
theorem read_iff {lines pieces : List Bytes} {result : HttpMessage}
    (hlines : ∀ line ∈ lines, line ≠ []) :
    (HttpProtocolDecoder.consume (.WaitingContentLength message) (lines ++ [] :: pieces)).bind
        HttpProtocolDecoder.finish = .ok result ↔
      match lines.find? announcesLength, pieces with
      | some line, piece :: _ => piece.length = (announcedSize line).toNat ∧
          result = (message.addLines lines).setBody piece
      | _, _ => result = message.addLines lines := by
  rw [HttpProtocolDecoder.consume_waitingContentLength hlines]
  cases lines.find? announcesLength with
  | none => exact ⟨fun h => (Except.ok.inj h).symm, fun h => congrArg Except.ok h.symm⟩
  | some line =>
    cases pieces with
    | nil => exact ⟨fun h => (Except.ok.inj h).symm, fun h => congrArg Except.ok h.symm⟩
    | cons piece pieces =>
      have hread : HttpProtocolDecoder.consume
          (.WaitingBody (message.addLines lines) (announcedSize line)) ([] :: piece :: pieces) =
          HttpProtocolDecoder.consume
            (.ReadBody (message.addLines lines) (announcedSize line)) (piece :: pieces) := rfl
      simp only [hread]
      by_cases hlength : piece.length = (announcedSize line).toNat
      · rw [HttpProtocolDecoder.consume_body _ hlength]
        exact ⟨fun h => ⟨hlength, (Except.ok.inj h).symm⟩, fun h => congrArg Except.ok h.2.symm⟩
      · obtain ⟨ex, herror⟩ :=
          HttpProtocolDecoder.consume_body_error (message.addLines lines) hlength pieces
        rw [herror]
        exact iff_of_false (by simp [Except.bind]) fun h => hlength h.1

/-- Without its first line a message comes back with fewer headers, or without its body. -/
theorem skipped {lines pieces : List Bytes} {result : HttpMessage} (hlines : ∀ line ∈ lines, line ≠ [])
    (hpieces : pieces.length ≤ 1) (h : (HttpProtocolDecoder.consume .WaitingMessage
      (lines ++ [] :: pieces)).bind HttpProtocolDecoder.finish = .ok result) :
    result.m_sequentialHeaders.length < lines.length ∨ pieces ≠ [] ∧ result.m_body = [] := by
  induction lines with
  | nil =>
    match pieces, hpieces with
    | [], _ => cases h
    | [piece], _ =>
      refine .inr ⟨by simp, ?_⟩
      have hblank : HttpProtocolDecoder.consume .WaitingMessage ([] ++ [] :: [piece]) =
        HttpProtocolDecoder.consume .WaitingMessage [piece] := rfl
      rw [hblank] at h
      simp only [HttpProtocolDecoder.consume, process, bind, Except.bind, pure, Except.pure] at h
      cases hpiece : tryMessage piece with
      | error ex =>
        rw [hpiece] at h
        cases h
      | ok found =>
        rw [hpiece] at h
        cases found with
        | none => cases h
        | some message =>
          cases h
          obtain ⟨_, _, _, rfl⟩ := tryMessage_fresh hpiece
          rfl
  | cons line lines ih =>
    obtain ⟨hline, hlines⟩ := List.forall_mem_cons.mp hlines
    rw [List.cons_append, HttpProtocolDecoder.consume, process] at h
    simp only [bind, Except.bind, pure, Except.pure] at h
    cases hmessage : tryMessage line with
    | error ex =>
      rw [hmessage] at h
      cases h
    | ok found =>
      rw [hmessage] at h
      cases found with
      | none =>
        refine (ih hlines h).imp_left fun hlt => ?_
        rw [List.length_cons]
        omega
      | some message =>
        refine .inl ?_
        obtain ⟨derived, major, minor, rfl⟩ := tryMessage_fresh hmessage
        have hlength := (addLines_rest (instantiate derived major minor) lines).2
        have hresult := (read_iff hlines).mp h
        have hheaders : result.m_sequentialHeaders =
            ((instantiate derived major minor).addLines lines).m_sequentialHeaders := by
          split at hresult
          · rw [hresult.2]
            rfl
          · rw [hresult]
        rw [hheaders, List.length_cons]
        exact Nat.lt_succ_of_le (by simpa [instantiate] using hlength)

theorem setBody_self {body : Bytes} (h : message.m_body = body) : message.setBody body = message := by
  subst h
  rfl

theorem Carried.measured_iff (h : message.Carried) (hbody : message.m_body ≠ []) :
    message.Measured ↔
      ((message.m_sequentialHeaders.map HttpHeader.line).find? announcesLength).isSome := by
  have hheader : ∀ value, message.getHeaderValue .ContentLength = .ok value ↔
      message.value? HttpHeader.Type.ContentLength.asString = some value := fun value => by
    rw [getHeaderValue, if_neg (by decide), getCustomHeaderValue_eq_ok_iff]
  constructor
  · intro hmeasured
    obtain ⟨value, hvalue, hnumeric⟩ := hmeasured.resolve_left hbody
    obtain ⟨line, hline, -⟩ := (h.find_announces value).mpr ⟨(hheader value).mp hvalue, hnumeric⟩
    rw [hline]
    rfl
  · intro hsome
    obtain ⟨line, hline⟩ := Option.isSome_iff_exists.mp hsome
    obtain ⟨hvalue, hnumeric⟩ := (h.find_announces _).mp ⟨line, hline, rfl⟩
    exact .inr ⟨_, (hheader _).mpr hvalue, hnumeric⟩

theorem completed_of_sized (h : message.m_body = [] ∨
    HttpHeader.Type.ContentLength.asString ∈ message.keys) : message.completed = message := by
  rw [completed, if_neg]
  rintro ⟨hbody, hkey⟩
  exact h.elim hbody hkey

theorem Carried.cut_rendering (h : message.Carried) (hfirst : ¬ EndsLine message.encodeFirstLine) :
    Cut.cut 13 10 message.rendering = message.encodeFirstLine ::
      (message.m_sequentialHeaders.map HttpHeader.line ++ [] :: Cut.cut 13 10 message.m_body) := by
  have hlines : ∀ line ∈ message.encodeFirstLine ::
      message.m_sequentialHeaders.map HttpHeader.line, ¬ EndsLine line :=
    List.forall_mem_cons.mpr ⟨hfirst, List.forall_mem_map.mpr fun header hheader =>
      (h.lines header hheader).2⟩
  have hrendering : message.rendering = (message.encodeFirstLine ::
      message.m_sequentialHeaders.map HttpHeader.line).flatMap (· ++ [13, 10]) ++
        13 :: 10 :: message.m_body := by
    simp [rendering, newLineCharacters]
  rw [hrendering, Cut.cut_lines_of_not_infix (by decide) _ hlines, Cut.cut_separator]
  rfl

/-- A message that was read can be passed on just where its first line is legible and its body
measured. -/
theorem forwards_iff {dataBlock : Bytes} (h : HttpProtocolDecoder.apply dataBlock = .ok message) :
    message.Forwards ↔ message.Legible ∧ message.Measured := by
  obtain ⟨hfirst, hcarried, hends, hsized⟩ := accepted h
  obtain ⟨hone, hlegible, hillegible⟩ := tryMessage_encodeFirstLine hfirst
  have hlines : ∀ line ∈ message.m_sequentialHeaders.map HttpHeader.line, line ≠ [] :=
    List.forall_mem_map.mpr fun header _ => header.line_ne_nil
  have hsent : message.Forwards ↔ (HttpProtocolDecoder.consume .WaitingMessage
      (message.encodeFirstLine :: (message.m_sequentialHeaders.map HttpHeader.line ++
        [] :: Cut.cut 13 10 message.m_body))).bind HttpProtocolDecoder.finish = .ok message := by
    rw [← hcarried.cut_rendering hone, ← HttpProtocolDecoder.apply_eq]
    have hencode := hcarried.indexed.apply_eq
    rw [completed_of_sized (hsized.imp_right fun ⟨line, hline⟩ => hline.key)] at hencode
    exact ⟨fun ⟨sent, after, hsent, hdecode⟩ => by cases hencode.symm.trans hsent; exact hdecode,
      fun hdecode => ⟨_, _, hencode, hdecode⟩⟩
  have hcut : Cut.cut 13 10 message.m_body =
      if message.m_body = [] then [] else [message.m_body] := by
    split
    · rename_i hempty
      rw [hempty, Cut.cut_nil]
    · rename_i hne
      exact Cut.cut_of_position_none hne (Cut.position_eq_none_iff.mpr hends)
  rw [hsent, hcut, HttpProtocolDecoder.consume, process]
  simp only [bind, Except.bind, pure, Except.pure]
  by_cases hlegal : message.Legible
  · rw [hlegible hlegal]
    simp only [hlegal, true_and]
    refine (read_iff hlines).trans ?_
    rw [hcarried.rebuild]
    by_cases hbody : message.m_body = []
    · have hmeasured : message.Measured := .inl hbody
      rw [if_pos hbody]
      simp only [hmeasured, iff_true]
      cases (message.m_sequentialHeaders.map HttpHeader.line).find? announcesLength
      · exact (setBody_self hbody).symm
      · exact (setBody_self hbody).symm
    · obtain ⟨announced, hkey, hlength, hvalue⟩ := hsized.resolve_left hbody
      rw [if_neg hbody, hcarried.measured_iff hbody]
      cases hfind : (message.m_sequentialHeaders.map HttpHeader.line).find? announcesLength with
      | none =>
        refine iff_of_false (fun heq => hbody ?_) (by simp)
        exact congrArg m_body heq
      | some line =>
        obtain ⟨hheader, hnumeric⟩ := (hcarried.find_announces (separate line 58).2).mp
          ⟨line, hfind, rfl⟩
        have hsize : announcedSize line = announcedSize announced := by
          rw [announcedSize, hvalue _ hheader hnumeric, announcedSize]
        exact iff_of_true ⟨by rw [hlength, hsize], (setBody_self rfl).symm⟩ rfl
  · refine iff_of_false (fun hagain => ?_) fun hboth => hlegal hboth.1
    cases hother : tryMessage message.encodeFirstLine with
    | error ex =>
      rw [hother] at hagain
      cases hagain
    | ok found =>
      rw [hother] at hagain
      cases found with
      | none =>
        have hpieces : (if message.m_body = [] then [] else [message.m_body]).length ≤ 1 := by
          split <;> simp
        rcases skipped hlines hpieces hagain with hfewer | ⟨hbody, hempty⟩
        · simp at hfewer
        · simp [hempty] at hbody
      | some other =>
        obtain ⟨derived, major, minor, rfl⟩ := tryMessage_fresh hother
        have hsame := (read_iff hlines).mp hagain
        refine hillegible hlegal _ hother ?_
        have hderived := (addLines_rest (instantiate derived major minor)
          (message.m_sequentialHeaders.map HttpHeader.line)).1
        rw [← hderived]
        split at hsame
        · exact (congrArg HttpMessage.derived hsame.2).symm
        · exact (congrArg HttpMessage.derived hsame).symm

/-- The length that is announced twice is no number any more. -/
example : (HttpProtocolDecoder.apply
      (text "HTTP/1.1 200 OK\r\nContent-Length:3\r\nContent-Length:3\r\n\r\nabc")).map
    (fun message => (message.getHeaderValue .ContentLength, message.m_body)) =
      .ok (.ok (text "3,3"), text "abc") := by decide +kernel

theorem forwards_iff_sample : ∃ message, HttpProtocolDecoder.apply
    (text "get http://host/a HTTP/1.1 x\r\ncontent-length:3\r\n\r\nabc") = .ok message ∧
      (message.Forwards ↔ message.Legible ∧ message.Measured) := by
  have hok : (HttpProtocolDecoder.apply
      (text "get http://host/a HTTP/1.1 x\r\ncontent-length:3\r\n\r\nabc")).isOk = true := by
    decide +kernel
  cases hdecode : HttpProtocolDecoder.apply
      (text "get http://host/a HTTP/1.1 x\r\ncontent-length:3\r\n\r\nabc") with
  | error ex =>
    rw [hdecode] at hok
    cases hok
  | ok message => exact ⟨message, rfl, forwards_iff hdecode⟩

end HttpMessage

end Coffee.Http
