import Coffee.Http.HeaderLines
import Mathlib.Data.List.DropRight

/-! # The announced and the received body length

A block is a head, which starts at the first line that makes a message and ends at the first
empty line, and the payload behind it. The decoder compares the first line of the payload with a
32 bit size taken from the first Content-Length of bare digits, and nothing else. The blocks it
accepts without their having the announced length are those of `MessageHead.Misread`.
-/

namespace Coffee.Http

open Coffee.Library Coffee.Basis HttpProtocolState HttpMessage

def findMessage : List (Bytes × Bytes) →
    Except RuntimeException (Option (HttpMessage × List (Bytes × Bytes)))
  | [] => return none
  | (line, _) :: rest => do
    match ← tryMessage line with
    | some message => return some (message, rest)
    | none => findMessage rest

/-- What counts as a decimal number: the bare digits that `isNumeric` accepts, any further forms of a
number, and never a list of values with commas between them. -/
structure Reading where
  decimal? : Bytes → Option Nat
  digits : ∀ value, isNumeric value = true → decimal? value = some (Decimal.value value)
  joined : ∀ value, 44 ∈ value → decimal? value = none

namespace Reading

def isBlank (c : UInt8) : Bool := c == 32 || c == 9

def trim (value : Bytes) : Bytes := (value.dropWhile isBlank).rdropWhile isBlank

theorem not_isBlank_of_isDigit {c : UInt8} (h : Decimal.isDigit c = true) : isBlank c = false := by
  rw [isBlank, Bool.or_eq_false_iff]
  constructor <;> rw [beq_eq_false_iff_ne] <;> rintro rfl <;> exact absurd h (by decide)

theorem trim_of_digits {value : Bytes} (h : ∀ c ∈ value, Decimal.isDigit c = true) :
    trim value = value := by
  have hfront : value.dropWhile isBlank = value := by
    cases value with
    | nil => rfl
    | cons c value =>
      have hblank := not_isBlank_of_isDigit (h c List.mem_cons_self)
      exact List.dropWhile_cons_of_neg (by simp [hblank])
  rw [trim, hfront, List.rdropWhile_eq_self_iff]
  intro hne
  simp [not_isBlank_of_isDigit (h _ (List.getLast_mem hne))]

theorem mem_trim {value : Bytes} {c : UInt8} (hblank : isBlank c = false) (h : c ∈ value) :
    c ∈ trim value := by
  have hkeeps : ∀ value : Bytes, c ∈ value → c ∈ value.dropWhile isBlank := by
    intro value h
    rw [← @List.takeWhile_append_dropWhile _ isBlank value, List.mem_append] at h
    refine h.resolve_left fun htake => ?_
    rw [List.mem_takeWhile_imp htake] at hblank
    cases hblank
  rw [trim, List.rdropWhile, List.mem_reverse]
  exact hkeeps _ (List.mem_reverse.mpr (hkeeps value h))

/-- Digits with optional blanks around them. -/
def blanks : Reading where
  decimal? value := if isNumeric (trim value) then some (Decimal.value (trim value)) else none
  digits value h := by
    rw [trim_of_digits (isNumeric_iff.mp h).2, if_pos h]
  joined value h := by
    rw [if_neg]
    intro hnumeric
    have hcomma := (isNumeric_iff.mp hnumeric).2 44 (mem_trim (by decide) h)
    revert hcomma
    decide

/-- The length that a line announces. -/
def announced? (reading : Reading) (line : Bytes) : Option Nat :=
  if lineClass line = .predefined .ContentLength then reading.decimal? (separate line 58).2 else none

end Reading

structure MessageHead where
  lines : List Bytes
  payload : Bytes
deriving DecidableEq, Repr

namespace MessageHead

/-- The header lines up to the empty one, and the bytes behind it. -/
def ofLines (rest : List (Bytes × Bytes)) : MessageHead where
  lines := (rest.takeWhile (·.1 ≠ [])).map Prod.fst
  payload := match rest.dropWhile (·.1 ≠ []) with
    | [] => []
    | (_, payload) :: _ => payload

def ofBlock (dataBlock : Bytes) : Option MessageHead :=
  match findMessage (Cut.lines 13 10 dataBlock) with
  | .ok (some (_, rest)) => some (ofLines rest)
  | _ => none

def number (line : Bytes) : Nat := Decimal.value (separate line 58).2

def announced (reading : Reading) (head : MessageHead) : List Nat :=
  head.lines.filterMap reading.announced?

/-- The body that the decoder takes, if it takes the block. -/
def body? (head : MessageHead) : Option Bytes :=
  match head.lines.find? announcesLength with
  | none => some []
  | some line =>
    match Cut.cut 13 10 head.payload with
    | [] => some []
    | piece :: _ => if piece.length = (announcedSize line).toNat then some piece else none

/-- The block ends with a head that announces something. -/
def Truncated (reading : Reading) (head : MessageHead) : Prop :=
  head.payload = [] ∧ ∃ n ∈ head.announced reading, n ≠ 0

/-- No line announces a length in bare digits, but one does in another form, and there is a payload. -/
def Unnoticed (reading : Reading) (head : MessageHead) : Prop :=
  head.lines.find? announcesLength = none ∧ head.payload ≠ [] ∧ head.announced reading ≠ []

/-- The first line of the payload has the size that the decoder compares with, which is not the
length of the payload or not each of the announced lengths. -/
def Mismatched (reading : Reading) (head : MessageHead) : Prop :=
  ∃ line piece pieces, head.lines.find? announcesLength = some line ∧
    Cut.cut 13 10 head.payload = piece :: pieces ∧ piece.length = (announcedSize line).toNat ∧
    (2 ^ 32 ≤ number line ∨ head.payload ≠ piece ∨ ∃ n ∈ head.announced reading, n ≠ number line)

def Misread (reading : Reading) (head : MessageHead) : Prop :=
  head.Truncated reading ∨ head.Unnoticed reading ∨ head.Mismatched reading

end MessageHead

/-- The body of the message has every length that its header or the head of the block announces,
and so has what the block carries behind the empty line. -/
structure ExactBody (reading : Reading) (dataBlock : Bytes) (message : HttpMessage) : Prop where
  header : ∀ value n, message.getHeaderValue .ContentLength = .ok value →
    reading.decimal? value = some n → message.m_body.length = n
  announced : ∀ head, MessageHead.ofBlock dataBlock = some head → ∀ n ∈ head.announced reading,
    message.m_body.length = n ∧ head.payload.length = n

namespace HttpMessage

def addLines (message : HttpMessage) (lines : List Bytes) : HttpMessage :=
  lines.foldl addLine message

theorem addLines_body (message : HttpMessage) (lines : List Bytes) :
    (message.addLines lines).m_body = message.m_body := by
  induction lines generalizing message with
  | nil => rfl
  | cons line lines ih =>
    exact (ih (message.addLine line)).trans (setClass_rest message _ _).2.2.2

theorem addLines_setBody (derived : Derived) (major minor : UInt16) (lines : List Bytes) :
    ((instantiate derived major minor).addLines lines).setBody [] =
      (instantiate derived major minor).addLines lines := by
  have hbody := addLines_body (instantiate derived major minor) lines
  rw [setBody, show ([] : Bytes) = (instantiate derived major minor).m_body from rfl, ← hbody]

theorem lineClass_eq_contentLength {line : Bytes}
    (h : HttpHeader.Type.ContentLength.asString = (lineClass line).key) :
    lineClass line = .predefined .ContentLength := by
  unfold lineClass at h ⊢
  cases htype : tryStandardType (separate line 58).1 with
  | none =>
    simp only [htype, HttpHeader.Class.key] at h
    rw [← h] at htype
    exact absurd htype (by decide)
  | some type =>
    have hinjective : ∀ t ∈ HttpHeader.Type.predefined,
        HttpHeader.Type.ContentLength.asString = t.asString → t = .ContentLength := by
      decide +kernel
    simp only [htype, HttpHeader.Class.key] at h ⊢
    rw [hinjective type (HttpHeader.Type.mem_predefined (tryStandardType_ne_custom htype)) h]

theorem not_isNumeric_joined (old value : Bytes) : isNumeric (old ++ text "," ++ value) ≠ true := by
  intro h
  have hcomma := (isNumeric_iff.mp h).2 44 (by simp [text])
  revert hcomma
  decide

theorem Indexed.numeric_value {message : HttpMessage} {lines : List Bytes} {value : Bytes}
    (h : message.Indexed) {reading : Reading} {n : Nat} (hnumber : reading.decimal? value = some n)
    (hvalue : (message.addLines lines).value? HttpHeader.Type.ContentLength.asString = some value) :
    message.value? HttpHeader.Type.ContentLength.asString = some value ∨
      ∃ line ∈ lines, reading.announced? line = some n := by
  induction lines generalizing message with
  | nil => exact Or.inl hvalue
  | cons line lines ih =>
    rcases ih (h.setClass (lineClass_ne_custom line)) hvalue with hold | ⟨other, hother, hannounces⟩
    · rw [h.value?_setClass] at hold
      split at hold
      · next hkey =>
        have hclass := lineClass_eq_contentLength hkey
        refine Or.inr ⟨line, by simp, ?_⟩
        unfold joinValue at hold
        split at hold
        · cases hold
          rw [Reading.announced?, if_pos hclass, hnumber]
        · cases hold
          rw [reading.joined _ (by simp [text])] at hnumber
          cases hnumber
      · exact Or.inl hold
    · exact Or.inr ⟨other, List.mem_cons_of_mem line hother, hannounces⟩

end HttpMessage

namespace HttpProtocolDecoder

theorem consume_waitingBody {lines : List Bytes} (hlines : ∀ line ∈ lines, line ≠ [])
    (message : HttpMessage) (size : UInt32) (tokens : List Bytes) :
    consume (.WaitingBody message size) (lines ++ tokens) =
      consume (.WaitingBody (message.addLines lines) size) tokens := by
  induction lines generalizing message with
  | nil => rfl
  | cons line lines ih =>
    rw [List.cons_append, consume, process_waitingBody message size (hlines line (by simp))]
    exact ih (fun other hother => hlines other (by simp [hother])) (message.addLine line)

/-- The first numeric Content-Length of the head decides the state behind it. -/
theorem consume_waitingContentLength {lines : List Bytes} (hlines : ∀ line ∈ lines, line ≠ [])
    (message : HttpMessage) (tokens : List Bytes) :
    consume (.WaitingContentLength message) (lines ++ tokens) =
      match lines.find? announcesLength with
      | none => consume (.WaitingContentLength (message.addLines lines)) tokens
      | some line => consume (.WaitingBody (message.addLines lines) (announcedSize line)) tokens := by
  induction lines generalizing message with
  | nil => rfl
  | cons line lines ih =>
    have hrest := fun other hother => hlines other (List.mem_cons_of_mem line hother)
    rw [List.cons_append, consume, process_waitingContentLength message (hlines line (by simp)),
      List.find?_cons]
    cases announcesLength line with
    | true => exact consume_waitingBody hrest (message.addLine line) (announcedSize line) tokens
    | false => exact ih hrest (message.addLine line)

theorem consume_waitingMessage (lines : List (Bytes × Bytes)) :
    consume .WaitingMessage (lines.map Prod.fst) = (findMessage lines).bind fun
      | none => .ok .WaitingMessage
      | some (message, rest) => consume (.WaitingContentLength message) (rest.map Prod.fst) := by
  induction lines with
  | nil => rfl
  | cons pair lines ih =>
    simp only [List.map_cons, consume, process, findMessage, bind, Except.bind, pure, Except.pure]
    cases tryMessage pair.1 with
    | error ex => rfl
    | ok result =>
      cases result with
      | none => exact ih
      | some message => rfl

theorem findMessage_fresh {lines rest : List (Bytes × Bytes)} {message : HttpMessage}
    (h : findMessage lines = .ok (some (message, rest))) :
    (∃ derived major minor, message = .instantiate derived major minor) ∧ rest <:+ lines := by
  induction lines with
  | nil => cases h
  | cons pair lines ih =>
    simp only [findMessage, bind, Except.bind, pure, Except.pure] at h
    cases hmessage : tryMessage pair.1 with
    | error ex => rw [hmessage] at h; cases h
    | ok result =>
      rw [hmessage] at h
      cases result with
      | none =>
        obtain ⟨hfresh, hsuffix⟩ := ih h
        exact ⟨hfresh, hsuffix.trans (List.suffix_cons pair lines)⟩
      | some first =>
        cases h
        exact ⟨tryMessage_fresh hmessage, List.suffix_cons _ _⟩

theorem ofLines_split {dataBlock : Bytes} {rest : List (Bytes × Bytes)}
    (h : rest <:+ Cut.lines 13 10 dataBlock) :
    (∀ line ∈ (MessageHead.ofLines rest).lines, line ≠ []) ∧
      ∃ tokens, rest.map Prod.fst = (MessageHead.ofLines rest).lines ++ tokens ∧
        (tokens = [] ∧ (MessageHead.ofLines rest).payload = [] ∨
          tokens = [] :: Cut.cut 13 10 (MessageHead.ofLines rest).payload) := by
  have hsplit := List.takeWhile_append_dropWhile (p := fun pair : Bytes × Bytes => pair.1 ≠ [])
    (l := rest)
  constructor
  · intro line hline
    obtain ⟨pair, hpair, rfl⟩ := List.mem_map.mp hline
    simpa using List.mem_takeWhile_imp hpair
  · refine ⟨(rest.dropWhile (·.1 ≠ [])).map Prod.fst, ?_, ?_⟩
    · rw [MessageHead.ofLines, ← List.map_append, hsplit]
    · cases hdrop : rest.dropWhile (·.1 ≠ []) with
      | nil => exact Or.inl ⟨rfl, by rw [MessageHead.ofLines, hdrop]⟩
      | cons pair post =>
        obtain ⟨line, payload⟩ := pair
        have hempty : line = [] := by
          have := List.head?_dropWhile_not (fun pair : Bytes × Bytes => decide (pair.1 ≠ [])) rest
          rw [hdrop] at this
          simpa using this
        have hpost : post = Cut.lines 13 10 payload :=
          Cut.lines_suffix (hdrop ▸ (List.dropWhile_suffix _).trans h)
        refine Or.inr ?_
        rw [MessageHead.ofLines, hdrop, List.map_cons, hempty, hpost, Cut.lines_map_fst]

theorem apply_found {dataBlock : Bytes} {message : HttpMessage} {rest : List (Bytes × Bytes)}
    (hfind : findMessage (Cut.lines 13 10 dataBlock) = .ok (some (message, rest)))
    (received : HttpMessage) :
    apply dataBlock = .ok received ↔ ∃ body, (MessageHead.ofLines rest).body? = some body ∧
      received = (message.addLines (MessageHead.ofLines rest).lines).setBody body := by
  obtain ⟨⟨derived, major, minor, rfl⟩, hsuffix⟩ := findMessage_fresh hfind
  obtain ⟨hlines, tokens, hsplit, htokens⟩ := ofLines_split hsuffix
  rw [apply_eq, ← Cut.lines_map_fst, consume_waitingMessage, hfind]
  simp only [Except.bind, hsplit, consume_waitingContentLength hlines, MessageHead.body?]
  have hempty := addLines_setBody derived major minor (MessageHead.ofLines rest).lines
  generalize (HttpMessage.instantiate derived major minor).addLines
    (MessageHead.ofLines rest).lines = message at hempty ⊢
  cases (MessageHead.ofLines rest).lines.find? announcesLength with
  | none =>
    have hstop : consume (.WaitingContentLength message) tokens =
        .ok (.WaitingContentLength message) := by
      rcases htokens with ⟨rfl, -⟩ | rfl <;> rfl
    simp [hstop, finish, result, hempty, eq_comm, pure, Except.pure]
  | some line =>
    rcases htokens with ⟨rfl, hpayload⟩ | rfl
    · simp [hpayload, consume, finish, result, hempty, eq_comm, pure, Except.pure]
    · have hread : consume (.WaitingBody message (announcedSize line))
          ([] :: Cut.cut 13 10 (MessageHead.ofLines rest).payload) =
          consume (.ReadBody message (announcedSize line))
            (Cut.cut 13 10 (MessageHead.ofLines rest).payload) := rfl
      simp only [hread]
      cases Cut.cut 13 10 (MessageHead.ofLines rest).payload with
      | nil => simp [consume, finish, result, hempty, eq_comm, pure, Except.pure]
      | cons piece pieces =>
        by_cases hlength : piece.length = (announcedSize line).toNat
        · rw [consume_body message hlength]
          simp [hlength, finish, result, eq_comm, pure, Except.pure]
        · obtain ⟨ex, herror⟩ := consume_body_error message hlength pieces
          simp [herror, hlength]

theorem apply_not_found {dataBlock : Bytes} (h : MessageHead.ofBlock dataBlock = none)
    (received : HttpMessage) : apply dataBlock ≠ .ok received := by
  rw [apply_eq, ← Cut.lines_map_fst, consume_waitingMessage]
  unfold MessageHead.ofBlock at h
  cases hfind : findMessage (Cut.lines 13 10 dataBlock) with
  | error ex => simp [Except.bind]
  | ok found =>
    cases found with
    | none => simp [Except.bind, finish, result]
    | some found => simp [hfind] at h

end HttpProtocolDecoder

theorem announcedSize_toNat {line : Bytes} (h : announcesLength line = true)
    (hlt : MessageHead.number line < 2 ^ 32) :
    (announcedSize line).toNat = MessageHead.number line := by
  have hnumeric : isNumeric (separate line 58).2 = true := by
    simp only [announcesLength, Bool.and_eq_true] at h
    exact h.2
  rw [MessageHead.number] at hlt ⊢
  rw [announcedSize, atol_of_digits (isNumeric_iff.mp hnumeric).2, UInt32.ofInt,
    UInt32.toNat_ofNat']
  omega

namespace MessageHead

theorem announced?_of_announcesLength {line : Bytes} (reading : Reading)
    (h : announcesLength line = true) : reading.announced? line = some (number line) := by
  simp only [announcesLength, Bool.and_eq_true, beq_iff_eq] at h
  rw [Reading.announced?, if_pos h.1, reading.digits _ h.2, number]

theorem mem_announced {head : MessageHead} {line : Bytes} (reading : Reading)
    (h : head.lines.find? announcesLength = some line) : number line ∈ head.announced reading :=
  List.mem_filterMap.mpr ⟨line, List.mem_of_find?_eq_some h,
    announced?_of_announcesLength reading (List.find?_some h)⟩

/-- What the decoder takes has the announced lengths exactly when the head is not misread. -/
theorem exact_iff_not_misread (reading : Reading) (head : MessageHead) :
    (∀ body, head.body? = some body → ∀ n ∈ head.announced reading,
      body.length = n ∧ head.payload.length = n) ↔ ¬ head.Misread reading := by
  unfold body? Misread Truncated Unnoticed Mismatched
  cases hfirst : head.lines.find? announcesLength with
  | none =>
    by_cases hpayload : head.payload = []
    · simp [hpayload, @eq_comm Nat 0]
    · have hlength : head.payload.length ≠ 0 := by simpa using hpayload
      simp only [Option.some.injEq, forall_eq', List.length_nil, hpayload, false_and, ne_eq,
        not_false_eq_true, true_and, reduceCtorEq, exists_const, or_false, false_or, not_not]
      constructor
      · intro hexact
        refine List.eq_nil_iff_forall_not_mem.mpr fun n hn => ?_
        obtain ⟨hbody, hwhole⟩ := hexact n hn
        exact hlength (hwhole.trans hbody.symm)
      · intro hnone n hn
        rw [hnone] at hn
        cases hn
  | some line =>
    have hmem := mem_announced reading hfirst
    have hannounces := List.find?_some hfirst
    cases hcut : Cut.cut 13 10 head.payload with
    | nil =>
      have hpayload : head.payload = [] := by
        by_contra hne
        exact Cut.cut_ne_nil hne hcut
      simp [hpayload, @eq_comm Nat 0]
    | cons piece pieces =>
      have hpayload : head.payload ≠ [] := by
        intro hnil
        simp [hnil] at hcut
      by_cases hlength : piece.length = (announcedSize line).toNat
      · simp only [hlength, if_true, Option.some.injEq, forall_eq', hpayload, false_and, false_or,
          List.cons.injEq, reduceCtorEq]
        constructor
        · rintro hexact ⟨_, _, _, rfl, ⟨rfl, rfl⟩, -, hbad⟩
          obtain ⟨hsize, hwhole⟩ := hexact _ hmem
          have hfront := (Cut.cut_tail hcut).2
          rcases hbad with hwrap | hrest | ⟨n, hn, hne⟩
          · have := (announcedSize line).toNat_lt
            omega
          · exact hrest (hfront.eq_of_length (by omega)).symm
          · exact hne ((hexact n hn).1.symm.trans hsize)
        · intro hgood n hn
          have hgood' : ¬ (2 ^ 32 ≤ number line ∨ head.payload ≠ piece ∨
              ∃ n ∈ head.announced reading, n ≠ number line) := fun hbad =>
            hgood ⟨line, piece, pieces, rfl, ⟨rfl, rfl⟩, hlength, hbad⟩
          simp only [not_or, not_le, ne_eq, not_not, not_exists, not_and] at hgood'
          obtain ⟨hlt, hwhole, hsame⟩ := hgood'
          rw [hsame n hn, announcedSize_toNat hannounces hlt, hwhole, hlength,
            announcedSize_toNat hannounces hlt]
          exact ⟨rfl, rfl⟩
      · simp only [hlength, if_false, reduceCtorEq, false_implies, implies_true, hpayload,
          false_and, false_or, true_iff]
        rintro ⟨_, _, _, hline, hpiece, hsize, -⟩
        rw [Option.some.injEq] at hline
        rw [List.cons.injEq] at hpiece
        rw [← hline, ← hpiece.1] at hsize
        exact hlength hsize

end MessageHead

theorem exactBody_setBody_iff (reading : Reading) {dataBlock : Bytes} {message : HttpMessage}
    {rest : List (Bytes × Bytes)}
    (hfind : findMessage (Cut.lines 13 10 dataBlock) = .ok (some (message, rest))) (body : Bytes) :
    ExactBody reading dataBlock ((message.addLines (MessageHead.ofLines rest).lines).setBody body) ↔
      ∀ n ∈ (MessageHead.ofLines rest).announced reading,
        body.length = n ∧ (MessageHead.ofLines rest).payload.length = n := by
  have hblock : MessageHead.ofBlock dataBlock = some (MessageHead.ofLines rest) := by
    simp [MessageHead.ofBlock, hfind]
  obtain ⟨⟨derived, major, minor, rfl⟩, -⟩ := HttpProtocolDecoder.findMessage_fresh hfind
  constructor
  · exact fun h => h.announced _ hblock
  · intro h
    refine ⟨fun value n hvalue hnumber => ?_, fun head hhead => ?_⟩
    · have hvalue := getCustomHeaderValue_eq_ok_iff.mp hvalue
      rcases (indexed_instantiate derived major minor).numeric_value hnumber hvalue with
        hold | ⟨line, hline, hannounces⟩
      · cases hold
      · exact (h n (List.mem_filterMap.mpr ⟨line, hline, hannounces⟩)).1
    · rw [hblock, Option.some.injEq] at hhead
      subst hhead
      exact h

/-- Every accepted block carries exactly the announced body unless its head is misread, whatever is
read as a decimal number besides bare digits. -/
theorem exactBody_iff (reading : Reading) (dataBlock : Bytes) :
    (∀ message, HttpProtocolDecoder.apply dataBlock = .ok message →
      ExactBody reading dataBlock message) ↔
      ∀ head, MessageHead.ofBlock dataBlock = some head → ¬ head.Misread reading := by
  cases hfind : findMessage (Cut.lines 13 10 dataBlock) with
  | error ex =>
    have hnone : MessageHead.ofBlock dataBlock = none := by simp [MessageHead.ofBlock, hfind]
    simp [HttpProtocolDecoder.apply_not_found hnone, hnone]
  | ok found =>
    cases found with
    | none =>
      have hnone : MessageHead.ofBlock dataBlock = none := by simp [MessageHead.ofBlock, hfind]
      simp [HttpProtocolDecoder.apply_not_found hnone, hnone]
    | some found =>
      obtain ⟨message, rest⟩ := found
      have hblock : MessageHead.ofBlock dataBlock = some (MessageHead.ofLines rest) := by
        simp [MessageHead.ofBlock, hfind]
      rw [hblock]
      simp only [Option.some.injEq, forall_eq']
      rw [← MessageHead.exact_iff_not_misread]
      constructor
      · intro h body hbody
        exact (exactBody_setBody_iff reading hfind body).mp
          (h _ ((HttpProtocolDecoder.apply_found hfind _).mpr ⟨body, hbody, rfl⟩))
      · intro h received hreceived
        obtain ⟨body, hbody, rfl⟩ := (HttpProtocolDecoder.apply_found hfind _).mp hreceived
        exact (exactBody_setBody_iff reading hfind body).mpr (h body hbody)

/-- A block that ends behind the empty line is accepted although five bytes were announced, and so is
one whose five bytes are announced behind a blank and dropped. -/
theorem not_exactBody_truncated :
    (¬ ∀ dataBlock message, HttpProtocolDecoder.apply dataBlock = .ok message →
      ExactBody .blanks dataBlock message) ∧
    ∃ message, HttpProtocolDecoder.apply (text "GET / HTTP/1.1\r\nContent-Length: 5\r\n\r\nhello") =
      .ok message ∧ ¬ ExactBody .blanks
        (text "GET / HTTP/1.1\r\nContent-Length: 5\r\n\r\nhello") message := by
  constructor
  · intro h
    have hdecode : ∃ message, HttpProtocolDecoder.apply
        (text "GET / HTTP/1.1\r\nContent-Length:5\r\n\r\n") = .ok message ∧
          message.getHeaderValue .ContentLength = .ok (text "5") ∧ message.m_body = [] := by
      refine ⟨_, rfl, ?_, ?_⟩ <;> decide
    obtain ⟨message, hmessage, hvalue, hbody⟩ := hdecode
    have hlength := (h _ _ hmessage).header _ 5 hvalue (by decide)
    rw [hbody] at hlength
    exact absurd hlength (by decide)
  · have hdecode : ∃ message, HttpProtocolDecoder.apply
        (text "GET / HTTP/1.1\r\nContent-Length: 5\r\n\r\nhello") = .ok message ∧
          message.getHeaderValue .ContentLength = .ok (text " 5") ∧ message.m_body = [] := by
      refine ⟨_, rfl, ?_, ?_⟩ <;> decide
    obtain ⟨message, hmessage, hvalue, hbody⟩ := hdecode
    refine ⟨message, hmessage, fun hexact => ?_⟩
    have hlength := hexact.header _ 5 hvalue (by decide)
    rw [hbody] at hlength
    exact absurd hlength (by decide)

end Coffee.Http
