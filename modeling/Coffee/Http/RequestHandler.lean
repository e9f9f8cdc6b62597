import Coffee.Http.Codec

/-! # The HTTP server side

`HttpRequestHandler::apply` answers one received block. Its catch handler for an unknown path asks
the URL for the path again, so a request whose URL has none is not answered at all.
-/

namespace Coffee.Http

open Coffee.Library Coffee.Basis

/-- `service`: a response that is not null, or a thrown exception. -/
abbrev HttpServlet := HttpMessage → Except RuntimeException HttpMessage

abbrev Servlets := List (Bytes × HttpServlet)

namespace HttpService

def registerServlet (m_servlets : Servlets) (path : Bytes) (servlet : HttpServlet) :
    Except RuntimeException Servlets :=
  match m_servlets.lookup path with
  | some _ => .error ⟨text "Path " ++ path ++ text " already defined"⟩
  | none => .ok ((path, servlet) :: m_servlets)

def findServlet (m_servlets : Servlets) (path : Bytes) : Except RuntimeException HttpServlet :=
  match m_servlets.lookup path with
  | some servlet => .ok servlet
  | none => .error ⟨text "There is not Servlet defined for path " ++ path⟩

end HttpService

namespace HttpRequestHandler

/-- What was sent on the server socket, and how the call ended. -/
abbrev Outcome := List Bytes × Except RuntimeException Unit

/-- `serverSocket.send(encoder.apply(message))`. -/
def send (message : HttpMessage) : Outcome :=
  match HttpProtocolEncoder.apply message with
  | .ok (dataBlock, _) => ([dataBlock], .ok ())
  | .error ex => ([], .error ex)

def apply (m_servlets : Servlets) (dataBlock : Bytes) : Outcome :=
  match HttpProtocolDecoder.apply dataBlock with
  | .error ex => send (HttpResponse.instantiate 1 1 400 ex.what)
  | .ok httpMessage =>
    match httpMessage.derived with
    | .response _ _ =>
      send (HttpResponse.instantiate 1 1 400 (text "HTTP server can not work on HTTP responses"))
    | .request _ m_url =>
      match (HttpRequest.getPath m_url).bind (HttpService.findServlet m_servlets) with
      | .error _ =>
        match HttpRequest.getPath m_url with
        | .error ex => ([], .error ex)
        | .ok path =>
          send (HttpResponse.instantiate 1 1 404 (path ++ text " was not service for any servlet"))
      | .ok service =>
        match (service httpMessage).bind HttpProtocolEncoder.apply with
        | .ok (dataBlock, _) => ([dataBlock], .ok ())
        | .error ex => send (HttpResponse.instantiate 1 1 500 ex.what)

/-- Exactly one response is sent and the call returns. -/
def OneReply (outcome : Outcome) : Prop := outcome.1.length = 1 ∧ outcome.2 = .ok ()

instance (outcome : Outcome) : Decidable (OneReply outcome) :=
  inferInstanceAs (Decidable (outcome.1.length = 1 ∧ outcome.2 = .ok ()))

theorem send_instantiate (major minor : UInt16) (statusCode : Int32) (description : Bytes) :
    OneReply (send (HttpResponse.instantiate major minor statusCode description)) :=
  ⟨rfl, rfl⟩

theorem getPath_eq_ok_iff {m_url : URL} :
    (∃ path, HttpRequest.getPath m_url = .ok path) ↔ m_url.hasComponent .Path = true := by
  unfold HttpRequest.getPath URL.getComponent URL.hasComponent
  cases m_url.m_components .Path <;> simp

/-- The handler answers every block but those that decode to a request without a path. -/
theorem oneReply_iff (m_servlets : Servlets) (dataBlock : Bytes) :
    OneReply (apply m_servlets dataBlock) ↔ ∀ httpMessage method m_url,
      HttpProtocolDecoder.apply dataBlock = .ok httpMessage →
        httpMessage.derived = .request method m_url → m_url.hasComponent .Path = true := by
  unfold apply
  cases hdecode : HttpProtocolDecoder.apply dataBlock with
  | error ex => simp [send_instantiate]
  | ok httpMessage =>
    dsimp only
    cases hderived : httpMessage.derived with
    | response =>
      refine iff_of_true (send_instantiate _ _ _ _) ?_
      rintro _ method m_url ⟨⟩ hrequest
      rw [hderived] at hrequest
      cases hrequest
    | request method m_url =>
      have hpath : (∀ httpMessage' method' m_url',
          (.ok httpMessage : Except RuntimeException HttpMessage) = .ok httpMessage' →
            httpMessage'.derived = .request method' m_url' → m_url'.hasComponent .Path = true) ↔
            m_url.hasComponent .Path = true := by
        constructor
        · exact fun h => h httpMessage method m_url rfl hderived
        · rintro h _ method' m_url' ⟨⟩ hrequest
          rw [hderived, HttpMessage.Derived.request.injEq] at hrequest
          exact hrequest.2 ▸ h
      rw [hpath, ← getPath_eq_ok_iff]
      cases hget : HttpRequest.getPath m_url with
      | error ex => simp [hget, Except.bind, OneReply]
      | ok path =>
        refine iff_of_true ?_ ⟨path, rfl⟩
        simp only [hget, Except.bind]
        cases hfind : HttpService.findServlet m_servlets path with
        | error ex => exact send_instantiate _ _ _ _
        | ok service =>
          dsimp only
          split
          · exact ⟨rfl, rfl⟩
          · exact send_instantiate _ _ _ _

theorem not_oneReply_bareHost :
    ¬ ∀ (m_servlets : Servlets) (dataBlock : Bytes), OneReply (apply m_servlets dataBlock) := by
  intro h
  have hsent : ¬ OneReply (apply [] (text "GET http://host HTTP/1.1\r\n\r\n")) := by decide
  exact hsent (h [] _)

end HttpRequestHandler

end Coffee.Http
