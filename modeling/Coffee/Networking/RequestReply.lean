import Coffee.Library.Exchange
import Coffee.Http.RequestHandler

/-! # Clients, broker and server socket

`ClientSocket::send` sends on a REQ socket and waits for the response for a while, the broker receives
from the REP socket of a server and calls its handler, which sends on that socket. Threads interleave
in any way.
-/

namespace Coffee.Networking

open Coffee.Library Coffee.Basis Runs Exchange

/-- The sockets of ZeroMQ: an operation that fails, by its result or by an exception, is `none`. -/
structure Zmq (ι ζ : Type*) where
  step : ζ → Event ι Bytes → Option ζ

/-- The documented pattern of REQ and REP: what succeeds is a step of the exchange. -/
def Zmq.Documented {ι ζ : Type*} [DecidableEq ι] (zmq : Zmq ι ζ) (view : ζ → Exchange ι Bytes) :
    Prop :=
  ∀ z e z', z' ∈ zmq.step z e → view z' ∈ (view z).step e

/-- What a handler sends on the server socket for a message. -/
abbrev MessageHandler := Bytes → List Bytes

structure Network (ι ζ : Type*) where
  zmq : ζ
  /-- The request of the call of `ClientSocket::send` that waits for its response. -/
  calls : ι → Option Bytes
  /-- The message in the broker, and what its handler has still to send. -/
  handling : Option (Bytes × List Bytes)
  returned : List (ι × Bytes × Bytes)

namespace Network

variable {ι ζ : Type*}

inductive Move (ι : Type*)
  | send (c : ι) (request : Bytes)
  | recv (c : ι) (response : Bytes)
  | throws (c : ι)
  | poll (c : ι) (message : Bytes)
  | respond
  | loseRequest (c : ι) (request : Bytes)
  | loseReply (c : ι) (response : Bytes)

def start (z : ζ) : Network ι ζ := ⟨z, fun _ => none, none, []⟩

variable [DecidableEq ι] (zmq : Zmq ι ζ) (apply : MessageHandler)

def step (s : Network ι ζ) : Move ι → Option (Network ι ζ)
  | .send c request =>
    match s.calls c with
    | some _ => none
    | none =>
      match zmq.step s.zmq (.sent c request) with
      | none => some s
      | some z => some { s with zmq := z, calls := Function.update s.calls c (some request) }
  | .recv c response =>
    match s.calls c with
    | none => none
    | some request =>
      (zmq.step s.zmq (.received c response)).map fun z => { s with
        zmq := z
        calls := Function.update s.calls c none
        returned := s.returned ++ [(c, request, response)] }
  | .throws c =>
    match s.calls c with
    | none => none
    | some _ => some { s with calls := Function.update s.calls c none }
  | .poll c message =>
    match s.handling with
    | some _ => none
    | none =>
      (zmq.step s.zmq (.accepted c message)).map fun z =>
        { s with zmq := z, handling := some (message, apply message) }
  | .respond =>
    match s.handling with
    | none => none
    | some (_, []) => some { s with handling := none }
    | some (message, response :: rest) =>
      match zmq.step s.zmq (.replied response) with
      -- the exception leaves the handler and the broker writes it to the log
      | none => some { s with handling := none }
      | some z => some { s with zmq := z, handling := some (message, rest) }
  | .loseRequest c request =>
    (zmq.step s.zmq (.lostRequest c request)).map fun z => { s with zmq := z }
  | .loseReply c response =>
    (zmq.step s.zmq (.lostReply c response)).map fun z => { s with zmq := z }

/-- The first message that the handler sends for the request. -/
def Answers (request response : Bytes) : Prop := (apply request).head? = some response

variable {zmq apply} {view : ζ → Exchange ι Bytes} {s s' : Network ι ζ} {op : Move ι}
  {ops more : List (Move ι)} {c : ι}

/-- What a move can do. -/
inductive Steps (zmq : Zmq ι ζ) (apply : MessageHandler) (s : Network ι ζ) :
    Move ι → Network ι ζ → Prop
  | notSent {c : ι} {request : Bytes} : Steps zmq apply s (.send c request) s
  | sent {c : ι} {request : Bytes} {z : ζ} (hcall : s.calls c = none)
      (hz : z ∈ zmq.step s.zmq (.sent c request)) : Steps zmq apply s (.send c request)
        { s with zmq := z, calls := Function.update s.calls c (some request) }
  | received {c : ι} {request response : Bytes} {z : ζ} (hcall : s.calls c = some request)
      (hz : z ∈ zmq.step s.zmq (.received c response)) : Steps zmq apply s (.recv c response)
        { s with
          zmq := z
          calls := Function.update s.calls c none
          returned := s.returned ++ [(c, request, response)] }
  | threw {c : ι} {request : Bytes} (hcall : s.calls c = some request) :
      Steps zmq apply s (.throws c) { s with calls := Function.update s.calls c none }
  | polled {c : ι} {message : Bytes} {z : ζ} (hhandling : s.handling = none)
      (hz : z ∈ zmq.step s.zmq (.accepted c message)) : Steps zmq apply s (.poll c message)
        { s with zmq := z, handling := some (message, apply message) }
  | handled {message : Bytes} {rest : List Bytes} (hhandling : s.handling = some (message, rest))
      (hrest : ∀ response ∈ rest.head?, zmq.step s.zmq (.replied response) = none) :
      Steps zmq apply s .respond { s with handling := none }
  | responded {message response : Bytes} {rest : List Bytes} {z : ζ}
      (hhandling : s.handling = some (message, response :: rest))
      (hz : z ∈ zmq.step s.zmq (.replied response)) :
      Steps zmq apply s .respond { s with zmq := z, handling := some (message, rest) }
  | lostRequest {c : ι} {request : Bytes} {z : ζ}
      (hz : z ∈ zmq.step s.zmq (.lostRequest c request)) :
      Steps zmq apply s (.loseRequest c request) { s with zmq := z }
  | lostReply {c : ι} {response : Bytes} {z : ζ}
      (hz : z ∈ zmq.step s.zmq (.lostReply c response)) :
      Steps zmq apply s (.loseReply c response) { s with zmq := z }

theorem steps (hstep : s' ∈ step zmq apply s op) : Steps zmq apply s op s' := by
  cases op with
  | send c request =>
    cases hcall : s.calls c <;> simp only [step, hcall] at hstep
    case some => cases hstep
    cases hz : zmq.step s.zmq (.sent c request) <;> rw [hz] at hstep <;> cases hstep
    · exact .notSent
    · exact .sent hcall hz
  | recv c response =>
    cases hcall : s.calls c <;> simp only [step, hcall] at hstep
    case none => cases hstep
    obtain ⟨z, hz, rfl⟩ := Option.map_eq_some_iff.mp hstep
    exact .received hcall hz
  | throws c =>
    cases hcall : s.calls c <;> simp only [step, hcall] at hstep <;> cases hstep
    exact .threw hcall
  | poll c message =>
    cases hhandling : s.handling <;> simp only [step, hhandling] at hstep
    case some => cases hstep
    obtain ⟨z, hz, rfl⟩ := Option.map_eq_some_iff.mp hstep
    exact .polled hhandling hz
  | respond =>
    match hhandling : s.handling with
    | none =>
      rw [step, hhandling] at hstep
      cases hstep
    | some (message, []) =>
      rw [step, hhandling] at hstep
      cases hstep
      exact .handled hhandling nofun
    | some (message, response :: rest) =>
      rw [step, hhandling] at hstep
      cases hz : zmq.step s.zmq (.replied response) <;> simp only [hz] at hstep <;> cases hstep
      · refine .handled hhandling ?_
        rintro _ ⟨⟩
        exact hz
      · exact .responded hhandling hz
  | loseRequest c request =>
    obtain ⟨z, hz, rfl⟩ := Option.map_eq_some_iff.mp hstep
    exact .lostRequest hz
  | loseReply c response =>
    obtain ⟨z, hz, rfl⟩ := Option.map_eq_some_iff.mp hstep
    exact .lostReply hz

/-- The calls and the broker beside the exchange under them. -/
structure Consistent (apply : MessageHandler) (view : ζ → Exchange ι Bytes) (s : Network ι ζ)
    (asked : ι → Option Bytes) (serving : Option Bytes) : Prop where
  fits : Fits (Answers apply) (view s.zmq) asked serving
  calls : ∀ c request, s.calls c = some request → asked c = some request
  handling : ∀ message rest, s.handling = some (message, rest) →
    serving = some message ∧ ((view s.zmq).serves ≠ none → rest = apply message)
  returned : ∀ c request response, (c, request, response) ∈ s.returned →
    Answers apply request response

variable {asked : ι → Option Bytes} {serving : Option Bytes}

theorem consistent_start {z : ζ} (hz : view z = idle) :
    Consistent apply view (start z : Network ι ζ) (fun _ => none) none where
  fits := by
    rw [start, hz]
    exact fits_idle
  calls c request h := by cases h
  handling message rest h := by cases h
  returned c request response h := by cases h

/-- A step of the sockets that the broker has no part in. -/
theorem Consistent.transport (h : Consistent apply view s asked serving)
    (hzmq : zmq.Documented view) {e : Event ι Bytes} {z : ζ} (hz : z ∈ zmq.step s.zmq e)
    (haccepted : ∀ c m, e ≠ .accepted c m) (hreplied : ∀ m, e ≠ .replied m)
    {calls : ι → Option Bytes} (hcalls : ∀ c request, calls c = some request →
      askedAfter asked e c = some request)
    {returned : List (ι × Bytes × Bytes)} (hreturned : ∀ c request response,
      (c, request, response) ∈ returned → Answers apply request response) :
    Consistent apply view ⟨z, calls, s.handling, returned⟩ (askedAfter asked e)
      (servingAfter serving e) where
  fits := fits_step h.fits (hzmq _ _ _ hz) fun a ha => absurd ha (hreplied a)
  calls := hcalls
  handling message rest hmessage := by
    have hserves := serves_step (hzmq _ _ _ hz) haccepted hreplied
    have hserving : servingAfter serving e = serving := by
      cases e with
      | accepted c m => exact absurd rfl (haccepted c m)
      | _ => rfl
    rw [hserves, hserving]
    exact h.handling message rest hmessage
  returned := hreturned

theorem consistent_step (hzmq : zmq.Documented view) (h : Consistent apply view s asked serving)
    (hstep : s' ∈ step zmq apply s op) :
    ∃ asked serving, Consistent apply view s' asked serving := by
  cases steps hstep with
  | notSent => exact ⟨asked, serving, h⟩
  | sent hcall hz =>
    refine ⟨_, _, h.transport hzmq hz (by simp) (by simp) (fun d m hd => ?_) h.returned⟩
    simp only [askedAfter]
    grind [h.calls d m]
  | received hcall hz =>
    refine ⟨_, _, h.transport hzmq hz (by simp) (by simp) (fun d m hd => ?_) ?_⟩
    · simp only [askedAfter]
      grind [h.calls d m]
    · intro d m a hmem
      rcases List.mem_append.mp hmem with hold | hnew
      · exact h.returned d m a hold
      · cases List.mem_singleton.mp hnew
        obtain ⟨m', hasked, hanswers⟩ := h.fits.received_answers (hzmq _ _ _ hz)
        cases hasked.symm.trans (h.calls _ _ hcall)
        exact hanswers
  | threw hcall =>
    refine ⟨asked, serving, h.fits, fun d m hd => ?_, h.handling, h.returned⟩
    grind [h.calls d m]
  | @polled c message z hhandling hz =>
    refine ⟨asked, some message, h.fits.accepted (hzmq _ _ _ hz), h.calls, ?_, h.returned⟩
    rintro _ _ ⟨⟩
    exact ⟨rfl, fun _ => rfl⟩
  | handled hhandling =>
    exact ⟨asked, serving, h.fits, h.calls, nofun, h.returned⟩
  | @responded message response rest z hhandling hz =>
    obtain ⟨hbusy, hfree⟩ := serves_of_replied (hzmq _ _ _ hz)
    obtain ⟨hserving, hall⟩ := h.handling message _ hhandling
    have hanswers : ∀ m ∈ serving, Answers apply m response := by
      rintro m hm
      cases hserving.symm.trans hm
      rw [Answers, ← hall hbusy]
      rfl
    refine ⟨asked, serving, h.fits.replied (hzmq _ _ _ hz) hanswers, h.calls, ?_, h.returned⟩
    rintro _ _ ⟨⟩
    exact ⟨hserving, fun hserves => absurd hfree hserves⟩
  | lostRequest hz | lostReply hz =>
    exact ⟨_, _, h.transport hzmq hz (by simp) (by simp) h.calls h.returned⟩

theorem consistent_run (hzmq : zmq.Documented view) {z : ζ} (hz : view z = idle)
    (hs : s ∈ run? (step zmq apply) (start z) ops) :
    ∃ asked serving, Consistent apply view s asked serving :=
  @run?_invariant _ _ (step zmq apply) (start z)
    (fun s => ∃ asked serving, Consistent apply view s asked serving)
    (fun _ _ _ ⟨_, _, h⟩ hstep => consistent_step hzmq h hstep)
    ⟨_, _, consistent_start hz⟩ ops s hs

/-- The socket of the client has sent a request, and its call is over. -/
def Abandoned (view : ζ → Exchange ι Bytes) (c : ι) (s : Network ι ζ) : Prop :=
  s.calls c = none ∧ (view s.zmq).awaits c = true

def returnedTo (s : Network ι ζ) (c : ι) : List (Bytes × Bytes) :=
  (s.returned.filter fun call => call.1 = c).map Prod.snd

theorem abandoned_step (hzmq : zmq.Documented view) (h : Abandoned view c s)
    (hstep : s' ∈ step zmq apply s op) :
    Abandoned view c s' ∧ s'.returnedTo c = s.returnedTo c := by
  obtain ⟨hnone, hawaits⟩ := h
  cases steps hstep with
  | notSent | handled => exact ⟨⟨hnone, hawaits⟩, rfl⟩
  | @sent d request z hcall hz =>
    have hview := hzmq _ _ _ hz
    have hne : c ≠ d := by
      rintro rfl
      rw [not_awaits_of_sent hview] at hawaits
      cases hawaits
    refine ⟨⟨?_, awaits_step hview hawaits (by simp)⟩, rfl⟩
    exact (Function.update_of_ne hne ..).trans hnone
  | @received d request response z hcall hz =>
    have hne : d ≠ c := by
      rintro rfl
      rw [hnone] at hcall
      cases hcall
    refine ⟨⟨?_, awaits_step (hzmq _ _ _ hz) hawaits fun m heq => ?_⟩, ?_⟩
    · exact (Function.update_of_ne hne.symm ..).trans hnone
    · cases heq
      exact hne rfl
    · simp [returnedTo, hne]
  | threw hcall =>
    refine ⟨⟨?_, hawaits⟩, rfl⟩
    grind
  | polled _ hz | responded _ hz | lostRequest hz | lostReply hz =>
    exact ⟨⟨hnone, awaits_step (hzmq _ _ _ hz) hawaits (by simp)⟩, rfl⟩

theorem abandoned_run (hzmq : zmq.Documented view) (h : Abandoned view c s)
    (hs : s' ∈ run? (step zmq apply) s more) :
    Abandoned view c s' ∧ s'.returnedTo c = s.returnedTo c :=
  @run?_invariant _ _ (step zmq apply) s
    (fun s' => Abandoned view c s' ∧ s'.returnedTo c = s.returnedTo c)
    (fun _ _ _ ⟨h, hsame⟩ hstep =>
      (abandoned_step hzmq h hstep).imp_right fun heq => heq.trans hsame)
    ⟨h, rfl⟩ more s' hs

/-- The server has a request, and nothing that it has still to send for it. -/
def Silent (view : ζ → Exchange ι Bytes) (s : Network ι ζ) : Prop :=
  (view s.zmq).serves ≠ none ∧ ∀ message response rest,
    s.handling ≠ some (message, response :: rest)

/-- The message is received and handled without anything sent. -/
def Unanswered (apply : MessageHandler) : Move ι → Prop
  | .poll _ message => apply message = []
  | _ => False

/-- The move is no reply that the sockets refuse. -/
def Replies (zmq : Zmq ι ζ) (s : Network ι ζ) : Move ι → Prop
  | .respond => ∀ message response rest, s.handling = some (message, response :: rest) →
    (zmq.step s.zmq (.replied response)).isSome
  | _ => True

instance (zmq : Zmq ι ζ) (s : Network ι ζ) : (op : Move ι) → Decidable (Replies zmq s op)
  | .respond => decidable_of_iff (∀ handled ∈ s.handling, ∀ response ∈ handled.2.head?,
      (zmq.step s.zmq (.replied response)).isSome) (by
    refine ⟨fun h message response rest hhandling => h _ hhandling response rfl, ?_⟩
    rintro h ⟨message, _ | ⟨response, rest⟩⟩ hhandling _ hhead
    · cases hhead
    · cases hhead
      exact h message response rest hhandling)
  | .send _ _ | .recv _ _ | .throws _ | .poll _ _ | .loseRequest _ _ | .loseReply _ _ => .isTrue trivial

theorem silent_step (hzmq : zmq.Documented view) (h : Silent view s)
    (hstep : s' ∈ step zmq apply s op) : Silent view s' ∧ ∀ d message, op ≠ .poll d message := by
  obtain ⟨hserves, hhandling⟩ := h
  cases steps hstep with
  | notSent => exact ⟨⟨hserves, hhandling⟩, nofun⟩
  | sent _ hz | received _ hz | lostRequest hz | lostReply hz =>
    refine ⟨⟨?_, hhandling⟩, nofun⟩
    rw [serves_step (hzmq _ _ _ hz) (by simp) (by simp)]
    exact hserves
  | threw => exact ⟨⟨hserves, hhandling⟩, nofun⟩
  | polled _ hz => exact absurd (serves_of_accepted (hzmq _ _ _ hz)).1 hserves
  | handled => exact ⟨⟨hserves, nofun⟩, nofun⟩
  | responded hbusy => exact absurd hbusy (hhandling _ _ _)

theorem silent_of_unanswered (hzmq : zmq.Documented view) (h : Unanswered apply op)
    (hstep : s' ∈ step zmq apply s op) : Silent view s' := by
  cases steps hstep with
  | polled hhandling hz =>
    refine ⟨?_, ?_⟩
    · rw [(serves_of_accepted (hzmq _ _ _ hz)).2]
      exact Option.some_ne_none _
    · rw [h]
      rintro _ _ _ ⟨⟩
  | _ => exact h.elim

theorem silent_of_step (hzmq : zmq.Documented view) (hreplies : Replies zmq s op)
    (hstep : s' ∈ step zmq apply s op) (h : Silent view s') :
    Silent view s ∨ Unanswered apply op := by
  obtain ⟨hserves, hhandling⟩ := h
  cases steps hstep with
  | notSent | threw => exact .inl ⟨hserves, hhandling⟩
  | sent _ hz | received _ hz | lostRequest hz | lostReply hz =>
    rw [serves_step (hzmq _ _ _ hz) (by simp) (by simp)] at hserves
    exact .inl ⟨hserves, hhandling⟩
  | @polled c message =>
    refine .inr ?_
    cases hmessage : apply message with
    | nil => exact hmessage
    | cons response rest => exact absurd (by rw [hmessage]) (hhandling message response rest)
  | @handled message rest hbusy hrest =>
    refine .inl ⟨hserves, fun message' response rest' hpending => ?_⟩
    -- a reply that is refused ends the handler, too
    have hsome := hreplies message' response rest' hpending
    cases hbusy.symm.trans hpending
    rw [hrest response rfl] at hsome
    cases hsome
  | responded _ hz => exact absurd (serves_of_replied (hzmq _ _ _ hz)).2 hserves

theorem silent_of_mem (hzmq : zmq.Documented view) (hs : s' ∈ run? (step zmq apply) s ops)
    (h : Silent view s ∨ ∃ op ∈ ops, Unanswered apply op) : Silent view s' := by
  induction ops generalizing s with
  | nil =>
    cases hs
    simpa using h
  | cons op ops ih =>
    obtain ⟨s₁, hstep, hrest⟩ := Option.bind_eq_some_iff.mp hs
    refine ih hrest ?_
    rcases h with h | ⟨op', hop', hun⟩
    · exact .inl (silent_step hzmq h hstep).1
    · rcases List.mem_cons.mp hop' with rfl | hop'
      · exact .inl (silent_of_unanswered hzmq hun hstep)
      · exact .inr ⟨op', hop', hun⟩

theorem silent_run (hzmq : zmq.Documented view) (hs : s' ∈ run? (step zmq apply) s ops)
    (hreplies : Meets? (step zmq apply) (Replies zmq) s ops) (h : Silent view s') :
    Silent view s ∨ ∃ op ∈ ops, Unanswered apply op := by
  induction ops generalizing s with
  | nil =>
    cases hs
    exact .inl h
  | cons op ops ih =>
    obtain ⟨s₁, hstep, hrest⟩ := Option.bind_eq_some_iff.mp hs
    rcases ih hrest (hreplies.2 s₁ hstep) with h₁ | ⟨op', hop', hun⟩
    · rcases silent_of_step hzmq hreplies.1 hstep h₁ with h₀ | hun
      · exact .inl h₀
      · exact .inr ⟨op, List.mem_cons_self, hun⟩
    · exact .inr ⟨op', List.mem_cons_of_mem _ hop', hun⟩

theorem not_polled_of_silent (hzmq : zmq.Documented view) (h : Silent view s)
    (hs : s' ∈ run? (step zmq apply) s more) (message : Bytes) : .poll c message ∉ more := by
  induction more generalizing s with
  | nil => exact List.not_mem_nil
  | cons op more ih =>
    obtain ⟨s₁, hstep, hrest⟩ := Option.bind_eq_some_iff.mp hs
    obtain ⟨h₁, hop⟩ := silent_step hzmq h hstep
    rw [List.mem_cons, not_or]
    exact ⟨(hop c message).symm, ih h₁ hrest⟩

end Network

end Coffee.Networking
