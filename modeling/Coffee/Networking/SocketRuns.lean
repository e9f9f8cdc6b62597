import Coffee.Networking.Sockets

/-! # Runs of the networking service

What every run keeps of the sockets, of their endpoints and of the poll of the broker, whatever ZeroMQ
answers.
-/

namespace Coffee.Networking

open Coffee.Basis Coffee.Library Runs

namespace NetworkingService

structure Consistent (service : NetworkingService) : Prop where
  bound : ∀ binding ∈ service.context.bound,
    ∃ socket ∈ service.m_sockets[binding.1]?, Holds socket true binding.2
  connected : ∀ connection ∈ service.context.connected,
    ∃ socket ∈ service.m_sockets[connection.1]?, Holds socket false connection.2
  serves : service.isRunning = true → ∀ (i : Nat) (socket : Socket),
    service.m_sockets[i]? = some socket → socket.Serves i service.context
  broker : service.isRunning = true → service.m_broker = true ∧ service.terminated = false
  clients : ∀ name i, service.m_namedClientSockets name = some i →
    ∃ socket ∈ service.m_sockets[i]?, socket.type = .Client
  servers : ∀ i, i ∈ service.m_serverSockets ↔ ∃ socket ∈ service.m_sockets[i]?, socket.type = .Server
  subscribers : ∀ i, i ∈ service.m_subscriberSockets ↔
    ∃ socket ∈ service.m_sockets[i]?, socket.type = .Subscriber
  nodup_servers : service.m_serverSockets.Nodup
  nodup_subscribers : service.m_subscriberSockets.Nodup
  poll : ∀ poll ∈ service.poll, ∃ servers subscribers, poll = servers ++ subscribers ∧
    servers <+: service.m_serverSockets ∧ subscribers <+: service.m_subscriberSockets

variable {answers : Answers} {socket : Socket} {i : Nat} {context : Context}
  {service : NetworkingService} {call : Call}

theorem consistent_instantiate : Consistent instantiate := by
  constructor <;> simp [instantiate]

/-- A stop leaves what ZeroMQ refuses to take back. -/
theorem Consistent.stop_context (h : service.Consistent) (hrunning : service.isRunning = true)
    (answers : Answers) :
    (∀ binding, binding ∈ (service.stop answers).context.bound ↔
      binding ∈ service.context.bound ∧ answers.unbinds binding.1 binding.2 = false) ∧
    ∀ connection, connection ∈ (service.stop answers).context.connected ↔
      connection ∈ service.context.connected ∧
        answers.disconnects connection.1 connection.2 = false := by
  obtain ⟨hbound, hconnected⟩ := destroyFrom_spec answers service.m_sockets 0 service.context
  have hstop : (service.stop answers).context =
      destroyFrom answers 0 service.m_sockets service.context := by simp [stop, hrunning]
  rw [hstop]
  constructor
  · refine fun binding => (hbound binding).trans (and_congr_right fun hmem => ⟨fun hall => ?_, ?_⟩)
    · obtain ⟨socket, hsocket, hholds⟩ := h.bound binding hmem
      exact hall binding.1 (Nat.zero_add _).symm socket hsocket hholds
    · exact fun hrefused _ _ _ _ _ => hrefused
  · refine fun connection =>
      (hconnected connection).trans (and_congr_right fun hmem => ⟨fun hall => ?_, ?_⟩)
    · obtain ⟨socket, hsocket, hholds⟩ := h.connected connection hmem
      exact hall connection.1 (Nat.zero_add _).symm socket hsocket hholds
    · exact fun hrefused _ _ _ _ _ => hrefused

theorem register_spec (service : NetworkingService) (socket : Socket) (name : Bytes) :
    (service.register socket name).m_sockets = service.m_sockets ++ [socket] ∧
      (service.register socket name).context = service.context ∧
      (service.register socket name).isRunning = service.isRunning ∧
      (service.register socket name).m_broker = service.m_broker ∧
      (service.register socket name).terminated = service.terminated ∧
      (service.register socket name).poll = service.poll ∧
      (service.register socket name).m_serverSockets = service.m_serverSockets ++
        (if socket.type = .Server then [service.m_sockets.length] else []) ∧
      (service.register socket name).m_subscriberSockets = service.m_subscriberSockets ++
        (if socket.type = .Subscriber then [service.m_sockets.length] else []) ∧
      ((service.register socket name).m_namedClientSockets = service.m_namedClientSockets ∨
        socket.type = .Client ∧ (service.register socket name).m_namedClientSockets =
          Function.update service.m_namedClientSockets name (some service.m_sockets.length)) := by
  unfold register
  cases htype : socket.type with
  | Client =>
    by_cases hname : name = []
    · simp [hname]
    · simp [hname]
  | Server | Publisher | Subscriber => simp

theorem getElem?_concat (sockets : List Socket) (added : Socket) (i : Nat) :
    (sockets ++ [added])[i]? = if i = sockets.length then some added else sockets[i]? := by
  rcases Nat.lt_trichotomy i sockets.length with hlt | rfl | hgt
  · rw [List.getElem?_append_left hlt, if_neg (Nat.ne_of_lt hlt)]
  · simp
  · rw [if_neg (Nat.ne_of_gt hgt), List.getElem?_eq_none hgt.le, List.getElem?_eq_none]
    rw [List.length_append, List.length_singleton]
    exact hgt

/-- The sockets that are there stay where they are. -/
theorem getElem?_concat_of_mem {sockets : List Socket} {added : Socket}
    (h : socket ∈ sockets[i]?) : socket ∈ (sockets ++ [added])[i]? := by
  rw [List.getElem?_append_left (List.getElem?_eq_some_iff.mp h).1]
  exact h

theorem mem_append_iff {list : List Nat} {type : SocketType} {sockets : List Socket}
    (h : ∀ i, i ∈ list ↔ ∃ socket ∈ sockets[i]?, socket.type = type) (added : Socket) (i : Nat) :
    i ∈ list ++ (if added.type = type then [sockets.length] else []) ↔
      ∃ socket ∈ (sockets ++ [added])[i]?, socket.type = type := by
  rw [List.mem_append, h, getElem?_concat]
  by_cases hi : i = sockets.length
  · subst hi
    split <;> next hsame => simp [hsame]
  · rw [if_neg hi]
    split <;> simp [hi]

theorem nodup_append {list : List Nat} {type other : SocketType} {sockets : List Socket}
    (hnodup : list.Nodup) (h : ∀ i, i ∈ list ↔ ∃ socket ∈ sockets[i]?, socket.type = type) :
    (list ++ (if other = type then [sockets.length] else [])).Nodup := by
  split
  · refine hnodup.append (List.nodup_singleton _) fun i hi hlast => ?_
    obtain ⟨socket, hsocket, -⟩ := (h i).mp hi
    rw [List.mem_singleton.mp hlast] at hsocket
    simp at hsocket
  · rwa [List.append_nil]

theorem Consistent.register (h : service.Consistent) (name : Bytes)
    (hgrows : Grows (fun i => (service.m_sockets ++ [socket])[i]?) service.context context)
    (hserves : service.isRunning = true → socket.Serves service.m_sockets.length context) :
    ({ service with context }.register socket name).Consistent := by
  obtain ⟨hsockets, hcontext, hrunning, hbroker, hterminated, hpoll, hservers, hsubscribers, hnames⟩ :=
    register_spec { service with context } socket name
  constructor
  · rw [hcontext, hsockets]
    intro binding hmem
    rcases hgrows.new_bound binding hmem with hmem | hnew
    · obtain ⟨socket, hsocket, hholds⟩ := h.bound binding hmem
      exact ⟨socket, getElem?_concat_of_mem hsocket, hholds⟩
    · exact hnew
  · rw [hcontext, hsockets]
    intro connection hmem
    rcases hgrows.new_connected connection hmem with hmem | hnew
    · obtain ⟨socket, hsocket, hholds⟩ := h.connected connection hmem
      exact ⟨socket, getElem?_concat_of_mem hsocket, hholds⟩
    · exact hnew
  · rw [hrunning, hsockets, hcontext]
    intro hrunning j other hother
    rw [getElem?_concat] at hother
    split at hother
    · next hj =>
      cases hother
      rw [hj]
      exact hserves hrunning
    · exact (h.serves hrunning j other hother).mono hgrows.bound hgrows.connected
  · rw [hrunning, hbroker, hterminated]
    exact h.broker
  · rw [hsockets]
    intro other j hj
    rcases hnames with hsame | ⟨htype, hupdate⟩
    · rw [hsame] at hj
      obtain ⟨client, hclient, htype⟩ := h.clients other j hj
      exact ⟨client, getElem?_concat_of_mem hclient, htype⟩
    · rw [hupdate, Function.update_apply] at hj
      split at hj
      · cases hj
        exact ⟨socket, by simp, htype⟩
      · obtain ⟨client, hclient, htype⟩ := h.clients other j hj
        exact ⟨client, getElem?_concat_of_mem hclient, htype⟩
  · rw [hservers, hsockets]
    exact mem_append_iff h.servers socket
  · rw [hsubscribers, hsockets]
    exact mem_append_iff h.subscribers socket
  · rw [hservers]
    exact nodup_append h.nodup_servers h.servers
  · rw [hsubscribers]
    exact nodup_append h.nodup_subscribers h.subscribers
  · rw [hpoll, hservers, hsubscribers]
    intro poll hmem
    obtain ⟨servers, subscribers, hsplit, hprefix, hprefix'⟩ := h.poll poll hmem
    exact ⟨servers, subscribers, hsplit, hprefix.trans (List.prefix_append _ _),
      hprefix'.trans (List.prefix_append _ _)⟩

/-- A socket that is closed leaves the others with what they hold. -/
theorem Consistent.close (h : service.Consistent)
    (hgrows : Grows (Function.update (fun _ => none) service.m_sockets.length (some socket))
      service.context context) :
    ({ service with context := context.close service.m_sockets.length } :
      NetworkingService).Consistent := by
  have hold : ∀ {i : Nat}, (service.m_sockets[i]?).isSome → i ≠ service.m_sockets.length := by
    rintro i hsome rfl
    simp at hsome
  have hnone : ∀ {i : Nat}, i ≠ service.m_sockets.length →
      Function.update (fun _ => none) service.m_sockets.length (some socket) i = none :=
    fun hne => Function.update_of_ne hne _ _
  constructor
  · intro binding hmem
    obtain ⟨hmem, hne⟩ := List.mem_filter.mp hmem
    rcases hgrows.new_bound binding hmem with hmem | ⟨other, hother, -⟩
    · exact h.bound binding hmem
    · rw [hnone (of_decide_eq_true hne)] at hother
      cases hother
  · intro connection hmem
    obtain ⟨hmem, hne⟩ := List.mem_filter.mp hmem
    rcases hgrows.new_connected connection hmem with hmem | ⟨other, hother, -⟩
    · exact h.connected connection hmem
    · rw [hnone (of_decide_eq_true hne)] at hother
      cases hother
  · intro hrunning i other hother
    have hserves := h.serves hrunning i other hother
    have hne : i ≠ service.m_sockets.length := hold (Option.isSome_of_eq_some hother)
    refine ⟨hserves.1, hserves.2.1, ?_⟩
    have hholds := hserves.2.2
    cases hbinds : other.type.binds with
    | true =>
      rw [hbinds, if_pos rfl] at hholds
      obtain ⟨endPoint, hmem, hheld⟩ := hholds
      exact ⟨endPoint, hmem, List.mem_filter.mpr ⟨hgrows.bound hheld, by simpa using hne⟩⟩
    | false =>
      rw [hbinds, if_neg Bool.false_ne_true] at hholds
      exact ⟨hholds.1, fun endPoint hmem => List.mem_filter.mpr
        ⟨hgrows.connected (hholds.2 endPoint hmem), by simpa using hne⟩⟩
  · exact h.broker
  · exact h.clients
  · exact h.servers
  · exact h.subscribers
  · exact h.nodup_servers
  · exact h.nodup_subscribers
  · exact h.poll

theorem Consistent.createSocket (h : service.Consistent) (answers : Answers) (type : SocketType)
    (arguments : SocketArguments) : (service.createSocket answers type arguments).2.Consistent := by
  unfold NetworkingService.createSocket
  generalize hsocket : (⟨type, arguments.m_endPoints, arguments.hasMessageHandler,
    arguments.m_subscriptions⟩ : Socket) = socket
  dsimp only
  by_cases hrunning : service.isRunning = true
  · rw [if_pos hrunning]
    have halone := Socket.initializeSocket_spec answers
      (Function.update_self service.m_sockets.length (some socket) fun _ => none) service.context
    have hamong := @Socket.initializeSocket_spec socket service.m_sockets.length
      (fun i => (service.m_sockets ++ [socket])[i]?) answers (by simp) service.context
    cases hresult : socket.initializeSocket answers service.m_sockets.length service.context with
    | mk result after =>
      rw [hresult] at halone hamong
      cases result with
      | error ex => exact h.close halone.1
      | ok _ => exact h.register arguments.m_name hamong.1 fun _ => hamong.2 rfl
  · rw [if_neg hrunning]
    exact h.register arguments.m_name (Grows.refl _) fun hrunning' => absurd hrunning' hrunning

theorem Consistent.start (h : service.Consistent) (hterminated : service.terminated = false)
    (answers : Answers) : (service.start answers).2.Consistent := by
  unfold NetworkingService.start
  obtain ⟨hgrows, hserves⟩ := @initializeFrom_spec (fun i => service.m_sockets[i]?) answers 0
    service.m_sockets (fun k socket hsocket => by rw [Nat.zero_add]; exact hsocket) service.context
  have hbound : ∀ binding ∈ (initializeFrom answers 0 service.m_sockets service.context).2.bound,
      ∃ socket ∈ service.m_sockets[binding.1]?, Holds socket true binding.2 := by
    intro binding hmem
    rcases hgrows.new_bound binding hmem with hmem | hnew
    · exact h.bound binding hmem
    · exact hnew
  have hconnected : ∀ connection ∈
      (initializeFrom answers 0 service.m_sockets service.context).2.connected,
      ∃ socket ∈ service.m_sockets[connection.1]?, Holds socket false connection.2 := by
    intro connection hmem
    rcases hgrows.new_connected connection hmem with hmem | hnew
    · exact h.connected connection hmem
    · exact hnew
  cases hresult : initializeFrom answers 0 service.m_sockets service.context with
  | mk result after =>
    rw [hresult] at hserves hbound hconnected
    have hover : ∀ terminated, Consistent
        { service with context := after, isRunning := false, poll := none, terminated } :=
      fun _ => ⟨hbound, hconnected, nofun, nofun, h.clients, h.servers, h.subscribers,
        h.nodup_servers, h.nodup_subscribers, nofun⟩
    cases result with
    | error ex => exact hover _
    | ok _ =>
      dsimp only
      split
      · exact hover true
      · refine ⟨hbound, hconnected, fun _ i socket hsocket => ?_, fun _ => ⟨rfl, hterminated⟩,
          h.clients, h.servers, h.subscribers, h.nodup_servers, h.nodup_subscribers, h.poll⟩
        have hserves := hserves rfl i socket hsocket
        rwa [Nat.zero_add] at hserves

theorem consistent_step (h : service.Consistent) : (service.step call).Consistent := by
  unfold step
  by_cases hterminated : service.terminated = true
  · rw [if_pos hterminated]
    exact h
  rw [if_neg hterminated]
  cases call with
  | createSocket answers type arguments => exact h.createSocket answers type arguments
  | start answers => exact h.start (Bool.eq_false_iff.mpr hterminated) answers
  | broker =>
    have hpolls : ∀ poll ∈ some (Poll.instantiate service), ∃ servers subscribers,
        poll = servers ++ subscribers ∧ servers <+: service.m_serverSockets ∧
          subscribers <+: service.m_subscriberSockets := by
      rintro poll hpoll
      cases hpoll
      exact ⟨_, _, rfl, List.prefix_refl _, List.prefix_refl _⟩
    have hlooks : ({ service with poll := some (Poll.instantiate service) } :
        NetworkingService).Consistent :=
      { h with poll := hpolls }
    simp only [broker]
    split
    · exact h
    · split
      · exact hlooks
      · split
        · exact hlooks
        · exact h
  | stop answers =>
    cases hrunning : service.isRunning with
    | false =>
      simp only [stop, hrunning]
      exact h
    | true =>
      obtain ⟨hbound, hconnected⟩ := h.stop_context hrunning answers
      have hsockets : (service.stop answers).m_sockets = service.m_sockets := by
        simp [stop, hrunning]
      constructor
      · intro binding hmem
        rw [hsockets]
        exact h.bound binding ((hbound binding).mp hmem).1
      · intro connection hmem
        rw [hsockets]
        exact h.connected connection ((hconnected connection).mp hmem).1
      · simp [stop, hrunning]
      · simp [stop, hrunning]
      · simpa [stop, hrunning] using h.clients
      · simpa [stop, hrunning] using h.servers
      · simpa [stop, hrunning] using h.subscribers
      · simpa [stop, hrunning] using h.nodup_servers
      · simpa [stop, hrunning] using h.nodup_subscribers
      · simp [stop, hrunning]

theorem consistent_run (calls : List Call) : (run step instantiate calls).Consistent :=
  invariant (fun _ _ h => consistent_step h) consistent_instantiate calls

/-- A start takes nothing back, whether it throws or not. -/
theorem start_grows (service : NetworkingService) (answers : Answers) :
    service.context.bound ⊆ (service.start answers).2.context.bound ∧
      service.context.connected ⊆ (service.start answers).2.context.connected := by
  obtain ⟨hgrows, -⟩ := @initializeFrom_spec (fun i => service.m_sockets[i]?) answers 0
    service.m_sockets (fun k socket hsocket => by rw [Nat.zero_add]; exact hsocket) service.context
  unfold NetworkingService.start
  cases hresult : initializeFrom answers 0 service.m_sockets service.context with
  | mk result after =>
    rw [hresult] at hgrows
    cases result with
    | error ex => exact ⟨hgrows.bound, hgrows.connected⟩
    | ok _ =>
      dsimp only
      split <;> exact ⟨hgrows.bound, hgrows.connected⟩

theorem not_isRunning_start (hbroker : service.m_broker = true) (answers : Answers) :
    (service.start answers).2.isRunning = false := by
  unfold NetworkingService.start
  cases hresult : initializeFrom answers 0 service.m_sockets service.context with
  | mk result after =>
    cases result with
    | error ex => rfl
    | ok _ =>
      rw [hbroker]
      rfl

/-- While the service runs, each of its sockets has what it needs, a stop leaves of the endpoints just
those that ZeroMQ refuses to take back, and another start ends it. A start takes no endpoint back, not
even one that throws, and a client socket is found under its name. -/
theorem serves_of_run (calls : List Call) (answers : Answers) :
    ((run step instantiate calls).isRunning = true →
        (∀ (i : Nat) (socket : Socket), (run step instantiate calls).m_sockets[i]? = some socket →
          socket.Serves i (run step instantiate calls).context) ∧
        (∀ binding, binding ∈ (run step instantiate (calls ++ [.stop answers])).context.bound ↔
          binding ∈ (run step instantiate calls).context.bound ∧
            answers.unbinds binding.1 binding.2 = false) ∧
        (∀ connection,
          connection ∈ (run step instantiate (calls ++ [.stop answers])).context.connected ↔
            connection ∈ (run step instantiate calls).context.connected ∧
              answers.disconnects connection.1 connection.2 = false) ∧
        (run step instantiate (calls ++ [.start answers])).isRunning = false) ∧
      ((run step instantiate calls).context.bound ⊆
          (run step instantiate (calls ++ [.start answers])).context.bound ∧
        (run step instantiate calls).context.connected ⊆
          (run step instantiate (calls ++ [.start answers])).context.connected) ∧
      ∀ name i, (run step instantiate calls).findClientSocket name = .ok i →
        ∃ socket ∈ (run step instantiate calls).m_sockets[i]?, socket.type = .Client := by
  have h := consistent_run calls
  rw [run_concat, run_concat]
  refine ⟨fun hrunning => ?_, ?_, fun name i hfind => ?_⟩
  · obtain ⟨hbroker, hterminated⟩ := h.broker hrunning
    obtain ⟨hbound, hconnected⟩ := h.stop_context hrunning answers
    simp only [step, hterminated, Bool.false_eq_true, if_false]
    exact ⟨h.serves hrunning, hbound, hconnected, not_isRunning_start hbroker answers⟩
  · rw [step]
    split
    · exact ⟨List.Subset.refl _, List.Subset.refl _⟩
    · exact start_grows _ answers
  · unfold findClientSocket at hfind
    split at hfind
    · cases hfind
    · next j hname =>
      cases hfind
      exact h.clients name i hname

theorem eq_of_prefix_of_length {α : Type} {l₁ l₂ m₁ m₂ : List α} (h₁ : l₁ <+: m₁) (h₂ : l₂ <+: m₂)
    (hlength : l₁.length + l₂.length = m₁.length + m₂.length) : l₁ = m₁ ∧ l₂ = m₂ := by
  have hle₁ := h₁.length_le
  have hle₂ := h₂.length_le
  exact ⟨h₁.eq_of_length (by omega), h₂.eq_of_length (by omega)⟩

/-- A proper front of a list without duplicates lacks one of its members. -/
theorem exists_not_mem_of_prefix {list whole : List Nat} (h : list <+: whole) (hnodup : whole.Nodup)
    (hne : list ≠ whole) : ∃ i ∈ whole, i ∉ list := by
  obtain ⟨rest, rfl⟩ := h
  cases rest with
  | nil => simp at hne
  | cons i rest =>
    refine ⟨i, by simp, fun hmem => ?_⟩
    exact (List.nodup_append.mp hnodup).2.2 i hmem i List.mem_cons_self rfl

theorem Consistent.not_mem_poll {poll servers subscribers : List Nat} (h : service.Consistent)
    (hservers : servers <+: service.m_serverSockets)
    (hsubscribers : subscribers <+: service.m_subscriberSockets)
    (hpoll : poll = servers ++ subscribers) (hne : poll ≠ Poll.instantiate service) :
    ∃ i, ∃ socket ∈ service.m_sockets[i]?,
      (socket.type = .Server ∨ socket.type = .Subscriber) ∧ i ∉ poll := by
  subst hpoll
  by_cases hsame : servers = service.m_serverSockets
  · have hother : subscribers ≠ service.m_subscriberSockets := by
      rintro rfl
      exact hne (congrArg (· ++ _) hsame)
    obtain ⟨i, hmem, hnot⟩ := exists_not_mem_of_prefix hsubscribers h.nodup_subscribers hother
    obtain ⟨socket, hsocket, htype⟩ := (h.subscribers i).mp hmem
    refine ⟨i, socket, hsocket, .inr htype, fun hpoll => ?_⟩
    rcases List.mem_append.mp hpoll with hserver | hsubscriber
    · obtain ⟨other, hother, htype'⟩ := (h.servers i).mp (hservers.subset hserver)
      rw [Option.mem_unique hother hsocket, htype] at htype'
      cases htype'
    · exact hnot hsubscriber
  · obtain ⟨i, hmem, hnot⟩ := exists_not_mem_of_prefix hservers h.nodup_servers hsame
    obtain ⟨socket, hsocket, htype⟩ := (h.servers i).mp hmem
    refine ⟨i, socket, hsocket, .inl htype, fun hpoll => ?_⟩
    rcases List.mem_append.mp hpoll with hserver | hsubscriber
    · exact hnot hserver
    · obtain ⟨other, hother, htype'⟩ := (h.subscribers i).mp (hsubscribers.subset hsubscriber)
      rw [Option.mem_unique hother hsocket, htype] at htype'
      cases htype'

end NetworkingService

end Coffee.Networking
