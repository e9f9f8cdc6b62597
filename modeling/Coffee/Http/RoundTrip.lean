import Coffee.Http.HeaderLines
import Mathlib.Data.List.Infix

/-! # The round trip through encoder and decoder

The decoder cuts the body at CR LF like the head, and takes its first piece for the whole. A
message comes back exactly when its body holds no CR LF.
-/

namespace Coffee.Http

open Coffee.Library Coffee.Basis HttpProtocolState

/-- What the receiver of `derived` reads: an empty description is printed as a standard reason. -/
def HttpMessage.Derived.printed : HttpMessage.Derived → HttpMessage.Derived
  | .request method url => .request method url
  | .response code description => .response code (HttpResponse.reason code description)

/-- A header that a line can carry: a custom name is no predefined one up to letter case. -/
structure HttpHeader.Clean (header : HttpHeader) : Prop where
  value : ∀ c ∈ header.m_value, c ≠ 13 ∧ c ≠ 10 ∧ c ≠ 0
  name : ∀ name, header.m_class = .custom name →
    name ≠ [] ∧ (∀ c ∈ name, c ≠ 58 ∧ c ≠ 13 ∧ c ≠ 10 ∧ c ≠ 0) ∧
      ∀ type ∈ HttpHeader.Type.predefined, name.map toLower ≠ type.asString.map toLower

namespace HttpMessage

/-- The messages made with the operations of the library. -/
inductive Built : HttpMessage → Prop
  | request {method : HttpRequest.Method} {url : Bytes} {major minor : UInt32}
      {message : HttpMessage} (h : HttpRequest.instantiate method url major minor = .ok message) :
      Built message
  | response (major minor : UInt16) (statusCode : Int32) (errorDescription : Bytes) :
      Built (HttpResponse.instantiate major minor statusCode errorDescription)
  | responseFor {request : HttpMessage} (h : Built request) :
      Built (HttpResponse.instantiateFor request)
  | setHeader {message message' : HttpMessage} {type : HttpHeader.Type} {value : Bytes}
      (h : Built message) (hset : message.setHeader type value = .ok message') : Built message'
  | setCustomHeader {message : HttpMessage} (h : Built message) (name value : Bytes) :
      Built (message.setCustomHeader name value)
  | setBody {message : HttpMessage} (h : Built message) (body : Bytes) :
      Built (message.setBody body)
  | setStatusCode {message : HttpMessage} (h : Built message) (statusCode : Int32) :
      Built (message.setStatusCode statusCode)
  | setErrorDescription {message : HttpMessage} (h : Built message) (errorDescription : Bytes) :
      Built (message.setErrorDescription errorDescription)

/-- The bytes of the message do not collide with the syntax of the head, and the length of the
body is left to the encoder. -/
structure Transmissible (message : HttpMessage) : Prop where
  firstLine : match message.derived with
    | .request _ url => URLParser.build url.encode = .ok url ∧
        ∃ s, URLParser.build s = .ok url ∧ ∀ c ∈ s, c ≠ 32 ∧ c ≠ 13 ∧ c ≠ 10 ∧ c ≠ 0
    | .response code description => 0 ≤ code.toInt ∧ IsPhrase description
  headers : ∀ header ∈ message.m_sequentialHeaders, header.Clean
  contentLength : message.hasHeader .ContentLength = .ok false
  body : message.m_body.length < 2 ^ 31

def contentLength (message : HttpMessage) : List HttpHeader :=
  if message.m_body.isEmpty then []
  else [⟨.predefined .ContentLength, asString message.m_body.length⟩]

structure SameAs (received message : HttpMessage) : Prop where
  derived : received.derived = message.derived.printed
  majorVersion : received.m_majorVersion = message.m_majorVersion
  minorVersion : received.m_minorVersion = message.m_minorVersion
  headers : received.m_sequentialHeaders = message.m_sequentialHeaders ++ message.contentLength
  body : received.m_body = message.m_body

def RoundTrip (message : HttpMessage) : Prop :=
  ∃ dataBlock sent received, HttpProtocolEncoder.apply message = .ok (dataBlock, sent) ∧
    HttpProtocolDecoder.apply dataBlock = .ok received ∧ received.SameAs message

theorem Built.indexed {message : HttpMessage} (h : message.Built) : message.Indexed := by
  induction h with
  | @request method url _ _ _ h =>
    simp only [HttpRequest.instantiate, bind, Except.bind, pure, Except.pure] at h
    split at h
    · cases h
    · cases h
      exact indexed_instantiate _ _ _
  | response => exact indexed_instantiate _ _ _
  | responseFor => exact indexed_instantiate _ _ _
  | @setHeader _ _ type _ _ hset ih =>
    unfold HttpMessage.setHeader at hset
    split at hset
    · cases hset
    · next htype =>
      cases hset
      exact ih.setClass (by simpa using htype)
  | setCustomHeader _ _ _ ih => exact ih.setClass (by simp)
  | setBody _ _ ih => exact ⟨ih.lookup, ih.nodup, ih.named⟩
  | setStatusCode _ _ ih =>
    unfold HttpMessage.setStatusCode
    split
    · exact ⟨ih.lookup, ih.nodup, ih.named⟩
    · exact ih
  | setErrorDescription _ _ ih =>
    unfold HttpMessage.setErrorDescription
    split
    · exact ⟨ih.lookup, ih.nodup, ih.named⟩
    · exact ih

end HttpMessage

namespace HttpHeader

theorem strcasecmp_eq {lhs rhs : Bytes} (hl : 0 ∉ lhs) (hr : 0 ∉ rhs) :
    strcasecmp lhs rhs = true ↔ lhs.map toLower = rhs.map toLower := by
  rw [strcasecmp, cStr_eq_self hl, cStr_eq_self hr, beq_iff_eq]

theorem Clean.readable {header : HttpHeader} (h : header.Clean)
    (hnamed : header.m_class ≠ .predefined .Custom) : header.Readable := by
  obtain ⟨m_class, value⟩ := header
  cases m_class with
  | predefined type => exact readable_predefined (fun e => hnamed (by rw [e])) value
  | custom name =>
    obtain ⟨-, hbytes, hcase⟩ := h.name name rfl
    have hnul : 0 ∉ name := fun h0 => (hbytes 0 h0).2.2.2 rfl
    refine ⟨fun hcolon => (hbytes 58 hcolon).1 rfl, ?_⟩
    refine List.find?_eq_none.mpr fun type htype hsame => hcase type htype ?_
    have hnul' : 0 ∉ type.asString := fun h0 => (asString_clean type 0 h0).1 rfl
    exact (strcasecmp_eq hnul hnul').mp hsame

theorem Clean.not_mem_line {header : HttpHeader} (h : header.Clean) : 13 ∉ header.line := by
  have hkey : 13 ∉ header.m_class.key := by
    cases hclass : header.m_class with
    | predefined type => exact fun hc => (asString_clean type 13 hc).2 rfl
    | custom name => exact fun hc => ((h.name name hclass).2.1 13 hc).2.1 rfl
  simp only [line, List.mem_append, List.mem_cons, not_or]
  exact ⟨hkey, by decide, fun hc => (h.value 13 hc).1 rfl⟩

theorem clean_contentLength (n : Nat) : Clean ⟨.predefined .ContentLength, asString n⟩ where
  value c hc := by
    have hdigit : Decimal.isDigit c = true := Decimal.isDigit_of_mem_encode (asString_natCast n ▸ hc)
    refine ⟨?_, ?_, ?_⟩ <;> rintro rfl <;> exact absurd hdigit (by decide)
  name _ h := by cases h

end HttpHeader

namespace HttpProtocolEncoder

theorem encodeHeaders_eq {headers : List HttpHeader}
    (h : ∀ header ∈ headers, header.m_class ≠ .predefined .Custom) :
    encodeHeaders headers = .ok ((headers.map HttpHeader.line).flatMap (· ++ [13, 10])) := by
  induction headers with
  | nil => rfl
  | cons header headers ih =>
    rw [encodeHeaders, HttpHeader.encode_eq_line (h header (by simp)),
      ih fun other hother => h other (by simp [hother])]
    simp [newLineCharacters, bind, Except.bind, pure, Except.pure]

theorem addContentLength_eq {message : HttpMessage}
    (hlength : message.hasHeader .ContentLength = .ok false) :
    addContentLength message = .ok (message.setAll message.contentLength) := by
  simp only [addContentLength, hlength, bind, Except.bind, pure, Except.pure, Bool.not_false,
    Bool.and_true, HttpMessage.contentLength]
  cases message.m_body with
  | nil => rfl
  | cons c body => simp [HttpMessage.setHeader, HttpMessage.setAll]

end HttpProtocolEncoder

namespace HttpMessage

theorem Indexed.contentLength_not_mem {message : HttpMessage} (h : message.Indexed)
    (hlength : message.hasHeader .ContentLength = .ok false) :
    HttpHeader.Type.ContentLength.asString ∉ message.keys := by
  rw [← List.idxOf?_eq_none_iff, ← h.lookup]
  simpa [hasHeader, hasCustomHeader] using hlength

theorem Indexed.keys_nodup {message : HttpMessage} (h : message.Indexed)
    (hlength : message.hasHeader .ContentLength = .ok false) :
    (message.keys ++ message.contentLength.map (·.m_class.key)).Nodup := by
  unfold contentLength
  split
  · simpa using h.nodup
  · simp only [List.map_cons, List.map_nil, List.nodup_append, List.nodup_singleton, true_and,
      List.mem_singleton]
    refine ⟨h.nodup, ?_⟩
    rintro a ha b rfl rfl
    exact h.contentLength_not_mem hlength ha

def head (message : HttpMessage) : List Bytes :=
  message.encodeFirstLine ::
    (message.m_sequentialHeaders ++ message.contentLength).map HttpHeader.line

theorem contentLength_named (message : HttpMessage) :
    ∀ header ∈ message.contentLength, header.Clean ∧ header.m_class ≠ .predefined .Custom := by
  unfold contentLength
  split
  · simp
  · simp [HttpHeader.clean_contentLength]

theorem Indexed.encode_eq {message : HttpMessage} (h : message.Indexed)
    (hlength : message.hasHeader .ContentLength = .ok false) :
    ∃ sent, HttpProtocolEncoder.apply message =
      .ok (message.head.flatMap (· ++ [13, 10]) ++ 13 :: 10 :: message.m_body, sent) := by
  have hnamed := fun header hheader => (message.contentLength_named header hheader).2
  obtain ⟨hindexed, hheaders⟩ := h.setAll hnamed (h.keys_nodup hlength)
  obtain ⟨hderived, hmajor, hminor, hbody⟩ := message.setAll_rest message.contentLength
  have hencoded := HttpProtocolEncoder.encodeHeaders_eq hindexed.named
  rw [hheaders] at hencoded
  have hline : (message.setAll message.contentLength).encodeFirstLine = message.encodeFirstLine := by
    simp only [encodeFirstLine, encodeVersion, hderived, hmajor, hminor]
  refine ⟨message.setAll message.contentLength, ?_⟩
  simp only [HttpProtocolEncoder.apply, HttpProtocolEncoder.addContentLength_eq hlength, bind,
    Except.bind, hheaders, hencoded, hline, hbody, pure, Except.pure]
  simp [head, newLineCharacters]

/-- The first line makes an empty message of the same kind and version, and holds no CR. -/
theorem Transmissible.firstLine_eq {message : HttpMessage} (h : message.Transmissible) :
    tryMessage message.encodeFirstLine = .ok (some (.instantiate message.derived.printed
        message.m_majorVersion message.m_minorVersion)) ∧ 13 ∉ message.encodeFirstLine := by
  obtain ⟨-, -, -, hversion⟩ := encodeVersion_word message
  have hfirst := h.firstLine
  cases hderived : message.derived with
  | request method url =>
    rw [hderived] at hfirst
    obtain ⟨hencode, s, hbuild, hclean⟩ := hfirst
    have hnot : ∀ c : UInt8, (c = 32 ∨ c = 13 ∨ c = 0) → c ∉ url.encode := by
      rintro c (rfl | rfl | rfl)
      · exact URL.not_mem_encode hbuild (fun hc => (hclean _ hc).1 rfl) (by decide)
      · exact URL.not_mem_encode hbuild (fun hc => (hclean _ hc).2.1 rfl) (by decide)
      · exact URL.not_mem_encode hbuild (fun hc => (hclean _ hc).2.2.2 rfl) (by decide)
    refine ⟨tryMessage_request hderived (URL.encode_ne_nil hbuild) (hnot 32 (by simp))
      (hnot 0 (by simp)) hencode, ?_⟩
    rw [encodeFirstLine, hderived]
    simp only [List.mem_append, not_or]
    exact ⟨⟨⟨⟨(method_word method).1.2.2.2, by decide⟩, hnot 13 (by simp)⟩, by decide⟩, hversion⟩
  | response code description =>
    rw [hderived] at hfirst
    obtain ⟨hcode, hphrase⟩ := hfirst
    obtain ⟨⟨words, hreason, hwords⟩, hne⟩ := reason_phrase code hphrase
    have hline : message.encodeFirstLine = message.encodeVersion ++ text " " ++
        asString code.toInt ++ text " " ++ [32].intercalate words := by
      rw [encodeFirstLine, hderived, ← hreason]
    have hwords_ne : words ≠ [] := by
      rintro rfl
      exact hne hreason
    rw [hline, Derived.printed, hreason]
    refine ⟨tryMessage_response hcode hwords_ne fun w hw => ⟨(hwords w hw).1, ?_, ?_⟩, ?_⟩
    · exact fun hc => ((hwords w hw).2 _ hc).1 rfl
    · exact fun hc => ((hwords w hw).2 _ hc).2.2.2 rfl
    · have hnumber : 13 ∉ asString code.toInt := by
        rw [asString, if_neg (by omega)]
        exact Decimal.not_mem_encode (by decide)
      have hphrase' : 13 ∉ [32].intercalate words :=
        not_mem_intercalate (fun w hw hc => ((hwords w hw).2 _ hc).2.1 rfl) (by decide)
      simp only [List.mem_append, not_or]
      exact ⟨⟨⟨⟨hversion, by decide⟩, hnumber⟩, by decide⟩, hphrase'⟩

/-- The message the decoder holds when it reaches the body. -/
def received (message : HttpMessage) : HttpMessage :=
  (instantiate message.derived.printed message.m_majorVersion message.m_minorVersion).setAll
    (message.m_sequentialHeaders ++ message.contentLength)

theorem Indexed.received_sameAs {message : HttpMessage} (h : message.Indexed)
    (hlength : message.hasHeader .ContentLength = .ok false) :
    (message.received.setBody message.m_body).SameAs message := by
  obtain ⟨hderived, hmajor, hminor, -⟩ := (instantiate message.derived.printed
    message.m_majorVersion message.m_minorVersion).setAll_rest
      (message.m_sequentialHeaders ++ message.contentLength)
  have hnamed : ∀ header ∈ message.m_sequentialHeaders ++ message.contentLength,
      header.m_class ≠ .predefined .Custom := by
    intro header hheader
    rcases List.mem_append.mp hheader with hheader | hheader
    · exact h.named header hheader
    · exact (message.contentLength_named header hheader).2
  have hnodup := h.keys_nodup hlength
  have hheaders := ((indexed_instantiate message.derived.printed message.m_majorVersion
    message.m_minorVersion).setAll hnamed (by simpa [keys, instantiate] using hnodup)).2
  exact ⟨hderived, hmajor, hminor, hheaders, rfl⟩

theorem Transmissible.head_clean {message : HttpMessage} (h : message.Transmissible) :
    ∀ line ∈ message.head, 13 ∉ line := by
  intro line hline
  rcases List.mem_cons.mp hline with rfl | hline
  · exact h.firstLine_eq.2
  · obtain ⟨header, hheader, rfl⟩ := List.mem_map.mp hline
    rcases List.mem_append.mp hheader with hheader | hheader
    · exact (h.headers header hheader).not_mem_line
    · exact (message.contentLength_named header hheader).1.not_mem_line

theorem Transmissible.readable {message : HttpMessage} (h : message.Transmissible)
    (hindexed : message.Indexed) : ∀ header ∈ message.m_sequentialHeaders,
      header.Readable ∧ header.m_class ≠ .predefined .ContentLength := by
  intro header hheader
  refine ⟨(h.headers header hheader).readable (hindexed.named header hheader), fun hclass => ?_⟩
  refine hindexed.contentLength_not_mem h.contentLength ?_
  exact List.mem_map.mpr ⟨header, hheader, by rw [hclass]; rfl⟩

theorem Transmissible.consume_head {message : HttpMessage} (h : message.Transmissible)
    (hindexed : message.Indexed) (tokens : List Bytes) :
    HttpProtocolDecoder.consume .WaitingMessage (message.head ++ [] :: tokens) =
      if message.m_body.isEmpty then .ok (.WaitingContentLength message.received)
      else HttpProtocolDecoder.consume
        (.ReadBody message.received (UInt32.ofNat message.m_body.length)) tokens := by
  have hfirst : HttpProtocolDecoder.consume .WaitingMessage (message.head ++ [] :: tokens) =
      HttpProtocolDecoder.consume
        (.WaitingContentLength (instantiate message.derived.printed message.m_majorVersion
          message.m_minorVersion))
        ((message.m_sequentialHeaders.map HttpHeader.line) ++
          (message.contentLength.map HttpHeader.line ++ [] :: tokens)) := by
    simp only [head, List.map_append, List.cons_append, List.append_assoc,
      HttpProtocolDecoder.consume, process, h.firstLine_eq.1, bind, Except.bind, pure, Except.pure]
  rw [hfirst, HttpProtocolDecoder.consume_headers _ (h.readable hindexed), received,
    HttpMessage.contentLength]
  have hlt := h.body
  split
  · simp [HttpProtocolDecoder.consume, process, bind, Except.bind, pure, Except.pure]
  · rw [List.map_singleton, List.singleton_append,
      HttpProtocolDecoder.consume_contentLength (by omega)]
    simp [setAll]

theorem decode_eq {message : HttpMessage} (h : message.Transmissible)
    (hindexed : message.Indexed) :
    HttpProtocolDecoder.apply
        (message.head.flatMap (· ++ [13, 10]) ++ 13 :: 10 :: message.m_body) =
      if message.m_body.isEmpty then .ok message.received
      else (HttpProtocolDecoder.consume
        (.ReadBody message.received (UInt32.ofNat message.m_body.length))
          (Cut.cut 13 10 message.m_body)).bind HttpProtocolDecoder.finish := by
  rw [HttpProtocolDecoder.apply_eq, Cut.cut_lines (by decide) _ h.head_clean, Cut.cut_separator,
    h.consume_head hindexed]
  split <;> rfl

/-- A message makes the round trip exactly when its body holds no CR LF. -/
theorem roundTrip_iff {message : HttpMessage} (hbuilt : message.Built)
    (h : message.Transmissible) : message.RoundTrip ↔ ¬ [13, 10] <:+: message.m_body := by
  have hindexed := hbuilt.indexed
  obtain ⟨sent, hencode⟩ := hindexed.encode_eq h.contentLength
  have hdecode := decode_eq h hindexed
  have hsame := hindexed.received_sameAs h.contentLength
  have hlt := h.body
  have hsize : (UInt32.ofNat message.m_body.length).toNat = message.m_body.length := by
    rw [UInt32.toNat_ofNat', Nat.mod_eq_of_lt (by omega)]
  constructor
  · rintro ⟨dataBlock, sent', decoded, hencode', hdecode', -⟩ hfound
    rw [hencode, Except.ok.injEq, Prod.mk.injEq] at hencode'
    rw [← hencode'.1, hdecode] at hdecode'
    -- the first piece is shorter than the body, whose size was announced
    obtain ⟨piece, pieces, hcut, hshort⟩ := Cut.head_lt_of_infix hfound
    have hne : message.m_body.isEmpty = false := by
      cases hbody : message.m_body with
      | nil => simp [hbody] at hshort
      | cons => rfl
    have hlength : piece.length ≠ message.m_body.length := by omega
    obtain ⟨ex, herror⟩ := HttpProtocolDecoder.consume_body_error message.received
      (hsize ▸ hlength) pieces
    rw [hne, hcut, herror] at hdecode'
    cases hdecode'
  · intro hinfix
    refine ⟨_, sent, message.received.setBody message.m_body, hencode, ?_, hsame⟩
    rw [hdecode]
    split
    · next hempty =>
      have hbody : message.received.m_body = [] := (setAll_rest _ _).2.2.2
      rw [List.isEmpty_iff.mp hempty, ← hbody]
      rfl
    · next hne =>
      rw [Cut.cut_of_position_none (by simpa using hne) (Cut.position_eq_none_iff.mpr hinfix),
        HttpProtocolDecoder.consume_body _ hsize.symm]
      rfl

def answer (body : Bytes) : HttpMessage :=
  ((HttpResponse.instantiate 1 1 200 (text "All fine")).setCustomHeader (text "X-Kind")
    (text "plain:1")).setBody body

theorem answer_built (body : Bytes) : (answer body).Built :=
  .setBody (.setCustomHeader (.response 1 1 200 _) _ _) body

theorem answer_transmissible {body : Bytes} (h : body.length < 2 ^ 31) :
    (answer body).Transmissible where
  firstLine := ⟨by decide, [text "All", text "fine"], by decide +kernel, by decide +kernel⟩
  headers header hheader := by
    obtain rfl : header = ⟨.custom (text "X-Kind"), text "plain:1"⟩ :=
      List.mem_singleton.mp hheader
    refine ⟨by decide +kernel, fun name hname => ?_⟩
    cases hname
    exact ⟨by decide, by decide +kernel, by decide +kernel⟩
  contentLength := rfl
  body := h

theorem answer_roundTrip : (answer (text "a\nb:c")).RoundTrip :=
  (roundTrip_iff (answer_built _) (answer_transmissible (by decide))).mpr (by decide)

theorem not_roundTrip_crlf :
    ¬ ∀ message : HttpMessage, message.Built → message.Transmissible → message.RoundTrip := by
  intro h
  obtain ⟨dataBlock, sent, received, hencode, hdecode, -⟩ :=
    h (answer [13, 10]) (answer_built _) (answer_transmissible (by decide))
  have hfail : ((HttpProtocolEncoder.apply (answer [13, 10])).bind fun encoded =>
      HttpProtocolDecoder.apply encoded.1).toBool = false := by decide
  rw [hencode] at hfail
  simp [Except.bind, hdecode, Except.toBool] at hfail

end HttpMessage

end Coffee.Http
