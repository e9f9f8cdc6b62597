import Coffee.Http.Directory

/-! # The HTTP encoder and decoder

The decoder cuts the block at CR LF and feeds the pieces to a machine of four states. It holds a
result as soon as it has left `WaitingMessage`, so the later states carry one.
-/

namespace Coffee.Http

open Coffee.Library Coffee.Basis

namespace HttpProtocolEncoder

/-- The header the encoder adds to the message itself when there is a body. -/
def addContentLength (message : HttpMessage) : Except RuntimeException HttpMessage := do
  if 0 < message.m_body.length && !(← message.hasHeader .ContentLength) then
    message.setHeader .ContentLength (asString message.m_body.length)
  else return message

def encodeHeaders : List HttpHeader → Except RuntimeException Bytes
  | [] => return []
  | header :: headers => do return (← header.encode) ++ newLineCharacters ++ (← encodeHeaders headers)

def apply (message : HttpMessage) : Except RuntimeException (Bytes × HttpMessage) := do
  let message ← addContentLength message
  let headers ← encodeHeaders message.m_sequentialHeaders
  return (message.encodeFirstLine ++ newLineCharacters ++ headers ++ newLineCharacters ++
    message.m_body, message)

end HttpProtocolEncoder

inductive ProcessResult where
  | Continue | Completed
deriving DecidableEq, Repr

inductive HttpProtocolDecoder where
  | WaitingMessage
  | WaitingContentLength (m_result : HttpMessage)
  | WaitingBody (m_result : HttpMessage) (m_bodyExpectedSize : UInt32)
  | ReadBody (m_result : HttpMessage) (m_bodyExpectedSize : UInt32)
deriving DecidableEq

namespace HttpProtocolState

def tryStandardType (item : Bytes) : Option HttpHeader.Type :=
  HttpHeader.Type.predefined.find? fun type => strcasecmp item type.asString

def tryMethod (item : Bytes) : Option HttpRequest.Method :=
  HttpRequest.Method.all.find? fun method => strcasecmp item method.asString

/-- `atoi` stored into an `uint16_t`. -/
def versionNumber (s : Bytes) : UInt16 := (atoi s).toUInt32.toUInt16

def tryHttpVersion (item : Bytes) : Option (UInt16 × UInt16) :=
  let strVersions := separate (separate item 47).2 46
  if !isNumeric strVersions.1 || !isNumeric strVersions.2 then none
  else some (versionNumber strVersions.1, versionNumber strVersions.2)

def tryResponse (items : List Bytes) : Option HttpMessage :=
  match items with
  | version :: statusCode :: description :: rest =>
    if strncasecmp version (text "http") 4 then
      match tryHttpVersion version with
      | some httpVersion =>
        if isNumeric statusCode then
          some (HttpResponse.instantiate httpVersion.1 httpVersion.2 (atoi statusCode)
            ([32].intercalate (description :: rest)))
        else none
      | none => none
    else none
  | _ => none

def tryRequest (items : List Bytes) : Except RuntimeException (Option HttpMessage) :=
  match items with
  | methodName :: url :: version :: _ =>
    match tryMethod methodName, tryHttpVersion version with
    | some method, some httpVersion => do
      return some (← HttpRequest.instantiate method url httpVersion.1.toUInt32 httpVersion.2.toUInt32)
    | _, _ => return none
  | _ => return none

def tryMessage (value : Bytes) : Except RuntimeException (Option HttpMessage) :=
  match tryResponse (split value 32) with
  | some message => return some message
  | none => tryRequest (split value 32)

def process (context : HttpProtocolDecoder) (value : Bytes) :
    Except RuntimeException (ProcessResult × HttpProtocolDecoder) :=
  match context with
  | .WaitingMessage => do
    match ← tryMessage value with
    | some message => return (.Continue, .WaitingContentLength message)
    | none => return (.Continue, .WaitingMessage)
  | .WaitingContentLength m_result =>
    if value.isEmpty then return (.Completed, .WaitingContentLength m_result)
    else
      let items := separate value 58
      match tryStandardType items.1 with
      | some type => do
        let m_result ← m_result.setHeader type items.2
        if type = .ContentLength && isNumeric items.2 then
          return (.Continue, .WaitingBody m_result (UInt32.ofInt (atol items.2)))
        else return (.Continue, .WaitingContentLength m_result)
      | none => return (.Continue, .WaitingContentLength (m_result.setCustomHeader items.1 items.2))
  | .WaitingBody m_result m_bodyExpectedSize =>
    if value.isEmpty then return (.Continue, .ReadBody m_result m_bodyExpectedSize)
    else
      let items := separate value 58
      match tryStandardType items.1 with
      | some type => do
        return (.Continue, .WaitingBody (← m_result.setHeader type items.2) m_bodyExpectedSize)
      | none => return (.Continue, .WaitingBody (m_result.setCustomHeader items.1 items.2)
          m_bodyExpectedSize)
  | .ReadBody m_result m_bodyExpectedSize =>
    if value.length ≠ m_bodyExpectedSize.toNat then
      .error ⟨text "Body length received (" ++ asString m_bodyExpectedSize.toNat ++
        text ") does not match the received (" ++ asString value.length ++ text ")"⟩
    else return (.Completed, .ReadBody (m_result.setBody value) m_bodyExpectedSize)

end HttpProtocolState

namespace HttpProtocolDecoder

def result : HttpProtocolDecoder → Option HttpMessage
  | .WaitingMessage => none
  | .WaitingContentLength m_result => some m_result
  | .WaitingBody m_result _ => some m_result
  | .ReadBody m_result _ => some m_result

def readToken (dataBlock : Bytes) (currentPosition : Nat) : Option (Bytes × Nat) :=
  if currentPosition = dataBlock.length then none
  else match findText dataBlock newLineCharacters currentPosition with
    | none => some (dataBlock.drop currentPosition, dataBlock.length)
    | some endToken =>
      if endToken = currentPosition then some ([], currentPosition + 2)
      else some ((dataBlock.drop currentPosition).take (endToken - currentPosition), endToken + 2)

/-- The `while` loop of `apply`. Each token moves the position, so `fuel` beyond the length of
the block is never used up: see `loop_eq_consume`. -/
def loop (dataBlock : Bytes) : (fuel currentPosition : Nat) → HttpProtocolDecoder →
    Except RuntimeException HttpProtocolDecoder
  | 0, _, context => return context
  | fuel + 1, currentPosition, context =>
    match readToken dataBlock currentPosition with
    | none => return context
    | some (value, currentPosition) => do
      match ← HttpProtocolState.process context value with
      | (.Completed, context) => return context
      | (.Continue, context) => loop dataBlock fuel currentPosition context

def finish (context : HttpProtocolDecoder) : Except RuntimeException HttpMessage :=
  match context.result with
  | some m_result => return m_result
  | none => .error ⟨text "Unable to allocate an HTTP message"⟩

def apply (dataBlock : Bytes) : Except RuntimeException HttpMessage := do
  finish (← loop dataBlock (dataBlock.length + 1) 0 .WaitingMessage)

/-- The machine over a sequence of tokens. -/
def consume : HttpProtocolDecoder → List Bytes → Except RuntimeException HttpProtocolDecoder
  | context, [] => return context
  | context, value :: tokens => do
    match ← HttpProtocolState.process context value with
    | (.Completed, context) => return context
    | (.Continue, context) => consume context tokens

theorem readToken_end (dataBlock : Bytes) : readToken dataBlock dataBlock.length = none :=
  if_pos rfl

theorem readToken_last {dataBlock : Bytes} {pos : Nat} (hpos : pos < dataBlock.length)
    (h : Cut.position 13 10 (dataBlock.drop pos) = none) :
    readToken dataBlock pos = some (dataBlock.drop pos, dataBlock.length) := by
  rw [readToken, if_neg (Nat.ne_of_lt hpos), findText, newLineCharacters, search_pair, h]
  rfl

theorem readToken_next {dataBlock : Bytes} {pos i : Nat}
    (h : Cut.position 13 10 (dataBlock.drop pos) = some i) :
    readToken dataBlock pos = some ((dataBlock.drop pos).take i, pos + (i + 2)) := by
  have hlt := Cut.position_lt h
  rw [List.length_drop] at hlt
  rw [readToken, if_neg (by omega), findText, newLineCharacters, search_pair, h, Option.map_some]
  by_cases hzero : i = 0
  · subst hzero
    simp
  · have hne : ¬ i + pos = pos := by omega
    simp only [hne, if_false, Nat.add_sub_cancel, Nat.add_assoc, Nat.add_left_comm i pos 2]

theorem readToken_eq {dataBlock : Bytes} {pos : Nat} (hpos : pos ≤ dataBlock.length) :
    match readToken dataBlock pos with
    | none => dataBlock.drop pos = []
    | some (value, next) => pos < next ∧ next ≤ dataBlock.length ∧
        Cut.cut 13 10 (dataBlock.drop pos) = value :: Cut.cut 13 10 (dataBlock.drop next) := by
  rcases Nat.eq_or_lt_of_le hpos with rfl | hlt
  · rw [readToken_end]
    exact List.drop_length
  · have hne : dataBlock.drop pos ≠ [] := by simpa using hlt
    cases hfind : Cut.position 13 10 (dataBlock.drop pos) with
    | none =>
      rw [readToken_last hlt hfind]
      refine ⟨hlt, Nat.le_refl _, ?_⟩
      rw [List.drop_length, Cut.cut_nil, Cut.cut_of_position_none hne hfind]
    | some i =>
      have hbound := Cut.position_lt hfind
      rw [List.length_drop] at hbound
      rw [readToken_next hfind]
      refine ⟨by omega, by omega, ?_⟩
      rw [Cut.cut_of_position_some hfind, List.drop_drop]

theorem loop_eq_consume (dataBlock : Bytes) (fuel : Nat) :
    ∀ {pos : Nat} (context : HttpProtocolDecoder), pos ≤ dataBlock.length →
      dataBlock.length < fuel + pos →
      loop dataBlock fuel pos context = consume context (Cut.cut 13 10 (dataBlock.drop pos)) := by
  induction fuel with
  | zero => intro pos _ hpos hfuel; omega
  | succ fuel ih =>
    intro pos context hpos hfuel
    have htoken := readToken_eq hpos
    rw [loop]
    cases hread : readToken dataBlock pos with
    | none =>
      rw [hread] at htoken
      rw [htoken]
      rfl
    | some token =>
      obtain ⟨value, next⟩ := token
      rw [hread] at htoken
      obtain ⟨hlt, hle, hcut⟩ := htoken
      rw [hcut, consume]
      simp only [bind, Except.bind]
      cases HttpProtocolState.process context value with
      | error ex => rfl
      | ok outcome =>
        obtain ⟨result, context'⟩ := outcome
        cases result with
        | Completed => rfl
        | Continue => exact ih context' hle (by omega)

/-- The decoder runs its machine over the block cut at CR LF. -/
theorem apply_eq (dataBlock : Bytes) :
    apply dataBlock = (consume .WaitingMessage (Cut.cut 13 10 dataBlock)).bind finish := by
  rw [apply, loop_eq_consume dataBlock _ _ (Nat.zero_le _) (by omega)]
  rfl

theorem consume_body (message : HttpMessage) {size : UInt32} {value : Bytes}
    (h : value.length = size.toNat) (tokens : List Bytes) :
    consume (.ReadBody message size) (value :: tokens) =
      .ok (.ReadBody (message.setBody value) size) := by
  rw [consume, HttpProtocolState.process, if_neg (not_not_intro h)]
  rfl

theorem consume_body_error (message : HttpMessage) {size : UInt32} {value : Bytes}
    (h : value.length ≠ size.toNat) (tokens : List Bytes) :
    ∃ ex, consume (.ReadBody message size) (value :: tokens) = .error ex := by
  rw [consume, HttpProtocolState.process, if_pos h]
  exact ⟨_, rfl⟩

end HttpProtocolDecoder

end Coffee.Http
