import Coffee.Http.RoundTrip
import Coffee.Networking.RequestReply

/-! # Requests and responses over the network

A server socket hands each message to `HttpRequestHandler`, a client encodes its request, sends it and
decodes what comes back.
-/

namespace Coffee.Http

open Coffee.Library Coffee.Basis Coffee.Networking Runs Exchange

namespace HttpRequestHandler

/-- The handler of the server socket. -/
def sends (m_servlets : Servlets) : MessageHandler := fun message => (apply m_servlets message).1

/-- The block decodes to a request whose URL has no path. -/
def Pathless (dataBlock : Bytes) : Prop :=
  ∃ httpMessage method m_url, HttpProtocolDecoder.apply dataBlock = .ok httpMessage ∧
    httpMessage.derived = .request method m_url ∧ m_url.hasComponent .Path = false

variable {m_servlets : Servlets} {dataBlock : Bytes}

theorem send_eq_of_ok {message : HttpMessage} {sent : Bytes × HttpMessage}
    (h : HttpProtocolEncoder.apply message = .ok sent) : send message = ([sent.1], .ok ()) := by
  rw [send, h]

/-- The handler sends one response and returns, or throws with nothing sent. -/
theorem apply_cases (m_servlets : Servlets) (dataBlock : Bytes) :
    ¬ Pathless dataBlock ∧ (∃ response, apply m_servlets dataBlock = ([response], .ok ())) ∨
      Pathless dataBlock ∧ sends m_servlets dataBlock = [] := by
  have hsend : ∀ major minor statusCode description, ∃ response,
      send (HttpResponse.instantiate major minor statusCode description) = ([response], .ok ()) :=
    fun major minor statusCode description => ⟨_, rfl⟩
  unfold sends apply Pathless
  cases hdecode : HttpProtocolDecoder.apply dataBlock with
  | error ex => exact .inl ⟨by simp, hsend _ _ _ _⟩
  | ok httpMessage =>
    dsimp only
    cases hderived : httpMessage.derived with
    | response code description => exact .inl ⟨by simp [hderived], hsend _ _ _ _⟩
    | request method m_url =>
      have hpathless : (∃ httpMessage' method' m_url',
          (.ok httpMessage : Except RuntimeException HttpMessage) = .ok httpMessage' ∧
            httpMessage'.derived = .request method' m_url' ∧ m_url'.hasComponent .Path = false) ↔
          m_url.hasComponent .Path = false := by
        simp [hderived]
      rw [hpathless]
      cases hget : HttpRequest.getPath m_url with
      | error ex =>
        have hnone : m_url.hasComponent .Path = false := by
          rw [Bool.eq_false_iff, Ne, ← getPath_eq_ok_iff, hget]
          simp
        simp [hnone, hget, Except.bind]
      | ok path =>
        have hsome : m_url.hasComponent .Path = true := getPath_eq_ok_iff.mp ⟨path, hget⟩
        refine .inl ⟨by simp [hsome], ?_⟩
        simp only [hget, Except.bind]
        cases HttpService.findServlet m_servlets path with
        | error ex => exact hsend _ _ _ _
        | ok service =>
          dsimp only
          split
          · exact ⟨_, rfl⟩
          · exact hsend _ _ _ _

theorem sends_eq_nil_iff : sends m_servlets dataBlock = [] ↔ Pathless dataBlock := by
  rcases apply_cases m_servlets dataBlock with ⟨hpath, response, hresponse⟩ | ⟨hpath, hnil⟩
  · simp [sends, hresponse, hpath]
  · simp [hnil, hpath]

theorem apply_of_answers {response : Bytes}
    (h : Network.Answers (sends m_servlets) dataBlock response) :
    apply m_servlets dataBlock = ([response], .ok ()) := by
  rw [Network.Answers] at h
  rcases apply_cases m_servlets dataBlock with ⟨-, response', hresponse⟩ | ⟨-, hnil⟩
  · rw [sends, hresponse] at h
    cases h
    exact hresponse
  · rw [hnil] at h
    cases h

/-- `service` is called with `httpRequest`. -/
def Calls (m_servlets : Servlets) (dataBlock : Bytes) (service : HttpServlet)
    (httpRequest : HttpMessage) : Prop :=
  HttpProtocolDecoder.apply dataBlock = .ok httpRequest ∧
    ∃ method m_url, httpRequest.derived = .request method m_url ∧
      (HttpRequest.getPath m_url).bind (HttpService.findServlet m_servlets) = .ok service

theorem Calls.apply_eq {service : HttpServlet} {httpRequest : HttpMessage}
    (h : Calls m_servlets dataBlock service httpRequest) :
    apply m_servlets dataBlock =
      match (service httpRequest).bind HttpProtocolEncoder.apply with
      | .ok (dataBlock, _) => ([dataBlock], .ok ())
      | .error ex => send (HttpResponse.instantiate 1 1 500 ex.what) := by
  obtain ⟨hdecode, method, m_url, hderived, hservice⟩ := h
  rw [apply, hdecode]
  simp only [hderived]
  rewrite [hservice]
  rfl

/-- The message that the handler encodes for a request with a path. -/
def answer (m_servlets : Servlets) (path : Bytes) (httpRequest : HttpMessage) : HttpMessage :=
  match HttpService.findServlet m_servlets path with
  | .error _ => HttpResponse.instantiate 1 1 404 (path ++ text " was not service for any servlet")
  | .ok service =>
    match service httpRequest with
    | .error ex => HttpResponse.instantiate 1 1 500 ex.what
    | .ok response => response

theorem apply_eq_answer {httpRequest : HttpMessage} {method : HttpRequest.Method} {m_url : URL}
    {path : Bytes} (hdecode : HttpProtocolDecoder.apply dataBlock = .ok httpRequest)
    (hderived : httpRequest.derived = .request method m_url)
    (hpath : HttpRequest.getPath m_url = .ok path) {sent : Bytes × HttpMessage}
    (hencode : HttpProtocolEncoder.apply (answer m_servlets path httpRequest) = .ok sent) :
    apply m_servlets dataBlock = ([sent.1], .ok ()) := by
  unfold answer at hencode
  cases hfind : HttpService.findServlet m_servlets path with
  | error ex =>
    rw [hfind] at hencode
    simp only [apply, hdecode, hderived, hpath, Except.bind, hfind]
    exact send_eq_of_ok hencode
  | ok service =>
    have hcalls : Calls m_servlets dataBlock service httpRequest := by
      refine ⟨hdecode, method, m_url, hderived, ?_⟩
      rw [hpath]
      exact hfind
    rw [hcalls.apply_eq]
    simp only [hfind] at hencode
    cases hservice : service httpRequest with
    | error ex =>
      simp only [hservice] at hencode
      exact send_eq_of_ok hencode
    | ok response =>
      simp only [hservice] at hencode
      simp only [Except.bind, hencode]

end HttpRequestHandler

namespace HttpMessage

/-- What the decoder makes of an encoded message: the message, unless its body holds a CR LF. -/
theorem Transmissible.decode_encode {message : HttpMessage} (h : message.Transmissible)
    (hbuilt : message.Built) : ∃ dataBlock sent,
      HttpProtocolEncoder.apply message = .ok (dataBlock, sent) ∧
      ((∃ decoded, HttpProtocolDecoder.apply dataBlock = .ok decoded ∧ decoded.SameAs message) ∧
          ¬ [13, 10] <:+: message.m_body ∨
        (∃ ex, HttpProtocolDecoder.apply dataBlock = .error ex) ∧
          [13, 10] <:+: message.m_body) := by
  have hindexed := hbuilt.indexed
  obtain ⟨sent, hencode⟩ := hindexed.encode_eq h.contentLength
  have hlt := h.body
  have hsize : (UInt32.ofNat message.m_body.length).toNat = message.m_body.length := by
    rw [UInt32.toNat_ofNat', Nat.mod_eq_of_lt (by omega)]
  refine ⟨_, sent, hencode, ?_⟩
  rw [decode_eq h hindexed]
  by_cases hinfix : [13, 10] <:+: message.m_body
  · obtain ⟨piece, pieces, hcut, hshort⟩ := Cut.head_lt_of_infix hinfix
    have hne : message.m_body.isEmpty = false := by
      cases hbody : message.m_body with
      | nil => simp [hbody] at hshort
      | cons => rfl
    obtain ⟨ex, herror⟩ := HttpProtocolDecoder.consume_body_error message.received
      (hsize ▸ (by omega : piece.length ≠ message.m_body.length)) pieces
    refine .inr ⟨⟨ex, ?_⟩, hinfix⟩
    rw [hne, hcut, herror]
    rfl
  · refine .inl ⟨⟨message.received.setBody message.m_body, ?_,
      hindexed.received_sameAs h.contentLength⟩, hinfix⟩
    split
    · next hempty =>
      have hbody : message.received.m_body = [] := (setAll_rest _ _).2.2.2
      rw [List.isEmpty_iff.mp hempty, ← hbody]
      rfl
    · next hne =>
      rw [Cut.cut_of_position_none (by simpa using hne) (Cut.position_eq_none_iff.mpr hinfix),
        HttpProtocolDecoder.consume_body _ hsize.symm]
      rfl

end HttpMessage

namespace HttpClient

/-- `clientSocket` is `ClientSocket::send` of its socket, `asString` the text that the exception
shows of it. -/
def send (clientSocket : Bytes → Except RuntimeException Bytes) (asString : Bytes)
    (request : HttpMessage) : Except RuntimeException HttpMessage := do
  let (dataBlock, _) ← HttpProtocolEncoder.apply request
  let httpMessage ← HttpProtocolDecoder.apply (← clientSocket dataBlock)
  match httpMessage.derived with
  | .response _ _ => return httpMessage
  | .request _ _ =>
    .error ⟨text "HttpClient " ++ asString ++ text " did not receive an HTTP response"⟩

variable {m_servlets : Servlets} {clientSocket : Bytes → Except RuntimeException Bytes}
  {asString : Bytes}

theorem send_of_decoded {request decoded : HttpMessage} {dataBlock response : Bytes}
    {sent : HttpMessage} (hencode : HttpProtocolEncoder.apply request = .ok (dataBlock, sent))
    (hsocket : clientSocket dataBlock = .ok response)
    (hdecode : HttpProtocolDecoder.apply response = .ok decoded) {code : Int32}
    {description : Bytes} (hderived : decoded.derived = .response code description) :
    send clientSocket asString request = .ok decoded := by
  simp only [send, hencode, hsocket, hdecode, hderived, bind, Except.bind, pure, Except.pure]

/-- A client against the server, where the socket returns. A request whose body holds a CR LF comes to
no servlet. Any other comes as it was sent to the servlet of its path, and the client has the response
that the servlet made, or the 404 or 500 that stands for it, just when its body holds no CR LF. -/
theorem send_sameAs_iff (asString : Bytes) {request : HttpMessage}
    {method : HttpRequest.Method} {m_url : URL} {path dataBlock block : Bytes} {sent : HttpMessage}
    (hbuilt : request.Built) (h : request.Transmissible)
    (hderived : request.derived = .request method m_url)
    (hpath : HttpRequest.getPath m_url = .ok path)
    (hencode : HttpProtocolEncoder.apply request = .ok (dataBlock, sent))
    (hreturns : clientSocket dataBlock = .ok block)
    (hserver : HttpRequestHandler.apply m_servlets dataBlock = ([block], .ok ())) :
    ([13, 10] <:+: request.m_body → ∀ service received,
      ¬ HttpRequestHandler.Calls m_servlets dataBlock service received) ∧
    (¬ [13, 10] <:+: request.m_body → ∃ received : HttpMessage, received.SameAs request ∧
      (∀ service, HttpService.findServlet m_servlets path = .ok service →
        HttpRequestHandler.Calls m_servlets dataBlock service received) ∧
      ∀ response code description,
        HttpRequestHandler.answer m_servlets path received = response →
        response.Built → response.Transmissible →
        response.derived = .response code description →
        ((∃ result, send clientSocket asString request = .ok result ∧ result.SameAs response) ↔
          ¬ [13, 10] <:+: response.m_body)) := by
  obtain ⟨dataBlock', sent', hencode', hdecoded⟩ := h.decode_encode hbuilt
  cases hencode.symm.trans hencode'
  obtain ⟨⟨received, hdecode, hsame⟩, hbody⟩ | ⟨⟨ex, hthrows⟩, hinfix⟩ := hdecoded
  case inr =>
    refine ⟨fun _ service received hcalls => ?_, fun hbody => absurd hinfix hbody⟩
    cases hthrows.symm.trans hcalls.1
  have hrequest : received.derived = .request method m_url := by
    rw [hsame.derived, hderived]
    rfl
  refine ⟨fun hinfix => absurd hinfix hbody, fun _ => ⟨received, hsame, fun service hfind => ?_,
    fun response code description hanswer hbuilt' h' hresponse => ?_⟩⟩
  · refine ⟨hdecode, method, m_url, hrequest, ?_⟩
    rw [hpath]
    exact hfind
  subst hanswer
  obtain ⟨block', sent', hencode', hreply⟩ := h'.decode_encode hbuilt'
  have happly := HttpRequestHandler.apply_eq_answer hdecode hrequest hpath hencode'
  have hblock : block' = block := by
    rw [happly] at hserver
    simpa using hserver
  subst hblock
  obtain ⟨⟨decoded, hdecode', hsame'⟩, hnone⟩ | ⟨⟨ex, herror⟩, hinfix⟩ := hreply
  · refine iff_of_true ⟨decoded, ?_, hsame'⟩ hnone
    have hkind : decoded.derived = .response code (HttpResponse.reason code description) := by
      rw [hsame'.derived, hresponse]
      rfl
    exact send_of_decoded hencode hreturns hdecode' hkind
  · refine iff_of_false ?_ (not_not.mpr hinfix)
    rintro ⟨result, hresult, -⟩
    simp only [send, hencode, hreturns, herror, bind, Except.bind] at hresult
    cases hresult

def helloUrl : URL :=
  ⟨Function.update (Function.update (Function.update (fun _ => none) .Scheme (some (text "http")))
    .Host (some (text "host"))) .Path (some (text "/hello")), []⟩

def hello : HttpMessage := .instantiate (.request .Get helloUrl) 1 1

theorem build_helloUrl : URLParser.build (text "http://host/hello") = .ok helloUrl := by
  decide +kernel

theorem hello_built : hello.Built := by
  refine @HttpMessage.Built.request .Get (text "http://host/hello") 1 1 _ ?_
  rw [HttpRequest.instantiate, build_helloUrl]
  rfl

theorem hello_transmissible : hello.Transmissible where
  firstLine := ⟨by decide +kernel, text "http://host/hello", build_helloUrl, by decide +kernel⟩
  headers header hheader := absurd hheader List.not_mem_nil
  contentLength := rfl
  body := by decide

def helloServlet : HttpServlet := fun _ => .ok (HttpMessage.answer (text "a\nb:c"))

def helloServlets : Servlets := [(text "/hello", helloServlet)]

/-- The server in place of the socket and the network behind it. -/
def loopback (dataBlock : Bytes) : Except RuntimeException Bytes :=
  match HttpRequestHandler.apply helloServlets dataBlock with
  | ([response], .ok ()) => .ok response
  | _ => .error ⟨text "did not receive any response"⟩

theorem send_hello : (∃ dataBlock received, received.SameAs hello ∧
      HttpRequestHandler.Calls helloServlets dataBlock helloServlet received) ∧
    ∃ result, send loopback [] hello = .ok result ∧
      result.SameAs (HttpMessage.answer (text "a\nb:c")) := by
  obtain ⟨dataBlock, sent, hencode, -⟩ := hello_transmissible.decode_encode hello_built
  have hreply : HttpRequestHandler.apply helloServlets dataBlock =
      ([(HttpRequestHandler.sends helloServlets dataBlock).headD []], .ok ()) := by
    have hall : (HttpProtocolEncoder.apply hello).toOption.map (fun encoded =>
        decide (HttpRequestHandler.apply helloServlets encoded.1 =
          ([(HttpRequestHandler.sends helloServlets encoded.1).headD []], .ok ()))) =
          some true := by decide +kernel
    rw [hencode] at hall
    simpa [Except.toOption] using hall
  have hreturns : loopback dataBlock =
      .ok ((HttpRequestHandler.sends helloServlets dataBlock).headD []) := by
    rw [loopback, hreply]
  obtain ⟨received, hsame, hcalls, hanswer⟩ := (send_sameAs_iff [] hello_built
    hello_transmissible rfl rfl hencode hreturns hreply).2 (by decide)
  refine ⟨⟨dataBlock, received, hsame, hcalls helloServlet rfl⟩, ?_⟩
  exact (hanswer (HttpMessage.answer (text "a\nb:c")) _ _ rfl (HttpMessage.answer_built _)
    (HttpMessage.answer_transmissible (by decide)) rfl).mpr (by decide)

end HttpClient

namespace HttpService

variable {ι ζ : Type*} [DecidableEq ι] {zmq : Zmq ι ζ} {view : ζ → Exchange ι Bytes} {z : ζ}
  {m_servlets : Servlets} {s : Network ι ζ} {ops : List (Network.Move ι)}

/-- In every run of any number of clients against the server, each call that returns has the one
response that the handler made for the request of that very call. A client whose call has thrown
behind its request never returns from a call again. -/
theorem returned_own_response (hzmq : zmq.Documented view) (hz : view z = idle)
    (hs : s ∈ run? (Network.step zmq (HttpRequestHandler.sends m_servlets)) (Network.start z) ops) :
    (∀ c request response, (c, request, response) ∈ s.returned →
      HttpRequestHandler.apply m_servlets request = ([response], .ok ())) ∧
    ∀ c s₁ more s', s₁ ∈ Network.step zmq (HttpRequestHandler.sends m_servlets) s (.throws c) →
      s' ∈ run? (Network.step zmq (HttpRequestHandler.sends m_servlets)) s₁ more →
        s'.calls c = none ∧ s'.returnedTo c = s.returnedTo c := by
  obtain ⟨asked, serving, h⟩ := Network.consistent_run hzmq hz hs
  refine ⟨fun c request response hreturned => ?_, fun c s₁ more s' hthrows hrest => ?_⟩
  · exact HttpRequestHandler.apply_of_answers (h.returned c request response hreturned)
  · have habandoned : Network.Abandoned view c s₁ ∧ s₁.returnedTo c = s.returnedTo c := by
      cases Network.steps hthrows with
      | threw hcall =>
        refine ⟨⟨Function.update_self .., ?_⟩, rfl⟩
        rw [h.fits.awaits c, h.calls c _ hcall]
        rfl
    obtain ⟨h', hsame⟩ := Network.abandoned_run hzmq habandoned.1 hrest
    exact ⟨h'.1, hsame.trans habandoned.2⟩

def sampleRequest : Bytes := text "GET http://host/lost HTTP/1.1\r\n\r\n"

def sampleResponse : Bytes := (HttpRequestHandler.sends [] sampleRequest).headD []

/-- The first client gives up, the second is answered. -/
def sampleMoves : List (Network.Move Bool) :=
  [.send false sampleRequest, .send true sampleRequest, .throws false, .poll true sampleRequest,
    .respond, .respond, .recv true sampleResponse]

/-- The documented sockets themselves. -/
def documentedZmq : Zmq Bool (Exchange Bool Bytes) := ⟨Exchange.step⟩

theorem documentedZmq_documented : documentedZmq.Documented id := fun _ _ _ hz => hz

theorem sampleMoves_isSome : (run? (Network.step documentedZmq (HttpRequestHandler.sends []))
    (Network.start idle) sampleMoves).isSome := by decide +kernel

theorem returned_own_response_sample : ∃ s ∈ run? (Network.step documentedZmq
      (HttpRequestHandler.sends [])) (Network.start idle) sampleMoves,
    s.returned = [(true, sampleRequest, sampleResponse)] ∧
      HttpRequestHandler.apply [] sampleRequest = ([sampleResponse], .ok ()) := by
  have hreturned : ((run? (Network.step documentedZmq (HttpRequestHandler.sends []))
      (Network.start idle) sampleMoves).get sampleMoves_isSome).returned =
        [(true, sampleRequest, sampleResponse)] := by decide +kernel
  refine ⟨_, Option.get_mem sampleMoves_isSome, hreturned, ?_⟩
  refine (returned_own_response documentedZmq_documented rfl
    (Option.get_mem sampleMoves_isSome)).1 true _ _ ?_
  rw [hreturned]
  exact List.mem_singleton_self _

/-- The server receives on behind a request just when all that it received so far have a path. One
request without a path silences it: nothing that any client sends is received again. -/
theorem receives_again_iff (hzmq : zmq.Documented view) (hz : view z = idle)
    (hs : s ∈ run? (Network.step zmq (HttpRequestHandler.sends m_servlets)) (Network.start z) ops) :
    ((∃ c message, .poll c message ∈ ops ∧ HttpRequestHandler.Pathless message) →
      ∀ more s', s' ∈ run? (Network.step zmq (HttpRequestHandler.sends m_servlets)) s more →
        ∀ c message, .poll c message ∉ more) ∧
    (Meets? (Network.step zmq (HttpRequestHandler.sends m_servlets)) (Network.Replies zmq)
        (Network.start z) ops → s.handling = none →
      ((view s.zmq).serves = none ↔
        ∀ c message, .poll c message ∈ ops → ¬ HttpRequestHandler.Pathless message)) := by
  have hunanswered : (∃ op ∈ ops, Network.Unanswered (HttpRequestHandler.sends m_servlets) op) ↔
      ∃ c message, .poll c message ∈ ops ∧ HttpRequestHandler.Pathless message := by
    constructor
    · rintro ⟨op, hop, hun⟩
      cases op with
      | poll c message => exact ⟨c, message, hop, HttpRequestHandler.sends_eq_nil_iff.mp hun⟩
      | _ => exact hun.elim
    · rintro ⟨c, message, hop, hpathless⟩
      exact ⟨_, hop, HttpRequestHandler.sends_eq_nil_iff.mpr hpathless⟩
  refine ⟨fun hpathless more s' hrest c message => ?_, fun hreplies hhandling => ?_⟩
  · have hsilent := Network.silent_of_mem hzmq hs (.inr (hunanswered.mpr hpathless))
    exact Network.not_polled_of_silent hzmq hsilent hrest message
  · have hstart : ¬ Network.Silent view (Network.start z : Network ι ζ) := by
      simp [Network.Silent, Network.start, hz, idle]
    have hsilent : Network.Silent view s ↔
        ∃ c message, .poll c message ∈ ops ∧ HttpRequestHandler.Pathless message := by
      rw [← hunanswered]
      refine ⟨fun h => ?_, fun h => Network.silent_of_mem hzmq hs (.inr h)⟩
      exact (Network.silent_run hzmq hs hreplies h).resolve_left hstart
    have hserves : Network.Silent view s ↔ (view s.zmq).serves ≠ none := by
      simp [Network.Silent, hhandling]
    rw [← not_iff_not, ← Ne, ← hserves, hsilent]
    simp

def bareRequest : Bytes := text "GET http://host HTTP/1.1\r\n\r\n"

def bareMoves : List (Network.Move Bool) :=
  [.send false bareRequest, .poll false bareRequest, .respond, .send true sampleRequest]

theorem bareMoves_isSome : (run? (Network.step documentedZmq (HttpRequestHandler.sends []))
    (Network.start idle) bareMoves).isSome := by decide +kernel

theorem receives_again_bare :
    (∃ s ∈ run? (Network.step documentedZmq (HttpRequestHandler.sends [])) (Network.start idle)
      bareMoves, ∀ more s',
        s' ∈ run? (Network.step documentedZmq (HttpRequestHandler.sends [])) s more →
          .poll true sampleRequest ∉ more) ∧
    ∃ s ∈ run? (Network.step documentedZmq (HttpRequestHandler.sends [])) (Network.start idle)
      sampleMoves, s.zmq.serves = none := by
  refine ⟨⟨_, Option.get_mem bareMoves_isSome, fun more s' hs' => ?_⟩,
    ⟨_, Option.get_mem sampleMoves_isSome, ?_⟩⟩
  · refine (receives_again_iff documentedZmq_documented rfl
      (Option.get_mem bareMoves_isSome)).1 ?_ more s' hs' true _
    have hnil : HttpRequestHandler.sends [] bareRequest = [] := by decide +kernel
    exact ⟨false, bareRequest, by simp [bareMoves], HttpRequestHandler.sends_eq_nil_iff.mp hnil⟩
  · refine ((receives_again_iff documentedZmq_documented rfl
      (Option.get_mem sampleMoves_isSome)).2 (by decide +kernel) (by decide +kernel)).mpr ?_
    intro c message hpoll hpathless
    have hmessage : message = sampleRequest := by
      simp [sampleMoves] at hpoll
      exact hpoll.2
    have hne : HttpRequestHandler.sends [] sampleRequest ≠ [] := by decide +kernel
    exact hne (HttpRequestHandler.sends_eq_nil_iff.mpr (hmessage ▸ hpathless))

end HttpService

end Coffee.Http
