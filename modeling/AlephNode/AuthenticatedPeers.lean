import AlephNode.SessionChanges

/-!
# Authenticated peers

A step of the network component changes the tables of peers only where a stream opens or
closes, or where a message proves that its sender is a node. So every entry of the tables
was proved by its peer, and data reaches the user of a session only from a peer that has
proved itself for this session since its stream was last opened or closed. Data goes out
by the other table: that it goes to authenticated peers only depends on the two tables
matching, and holds in exactly the runs in which the peers concerned are free.
-/
namespace AlephNode.ConsensusNetwork

section Handling
variable {PeerId A S D : Type} [DecidableEq PeerId] [PeerIdBytes PeerId] [SignatureScheme A S]
  [Codec NodeIndex] [Codec S] [Codec D]

inductive Causes (net : ConsensusNetwork PeerId A S D) :
    Event PeerId A S D → PeerEvent PeerId → Prop
  | connected {remote order} :
      Causes net (.streamOpened remote net.protocol order) (.connected remote)
  | disconnected {remote} : Causes net (.streamClosed remote net.protocol) (.disconnected remote)
  | authenticated {remote raw session node} (proves : Proves net raw remote session node) :
      Causes net (.message remote net.protocol raw) (.authenticated remote session node)

def Reopens (protocol : String) (peer : PeerId) : Event PeerId A S D → Prop
  | .streamOpened remote protocol' _ => remote = peer ∧ protocol' = protocol
  | .streamClosed remote protocol' => remote = peer ∧ protocol' = protocol
  | _ => False

/-- The peer has proved that it is the node: by a message before the events `later`. -/
def Backed (initial : Task PeerId A S D) (events : List (Event PeerId A S D))
    (task : Task PeerId A S D) (peer : PeerId) (session : SessionId) (node : NodeIndex)
    (later : List (Event PeerId A S D)) : Prop :=
  ∃ raw earlier middle,
    events = later ++ .message peer middle.network.protocol raw :: earlier ∧
    Run Step initial earlier middle ∧ Proves middle.network raw peer session node ∧
    Run Step middle (later ++ [.message peer middle.network.protocol raw]) task

/-- The data that was handed to the user of a session, oldest first. -/
def userData (net : ConsensusNetwork PeerId A S D) (session : SessionId) : List D :=
  (net.sessions.lookup session).elim [] (·.dataForUser.messages)

/-- Data is sent to peers only that are authenticated for the session, and to a node only
where the peer is recorded as this node. -/
def SendsAuthenticated (net : ConsensusNetwork PeerId A S D) : Prop :=
  ∀ session data recipient peerOrder nodeOrder call,
    call ∈ net.onCommand peerOrder nodeOrder (.ofData session data recipient) →
    ∃ peer, call = net.sendMessage (.ofData session data) peer ∧
      net.peers.isAuthenticated peer session = true ∧
      ∀ node, recipient = .target node → net.peers.nodeOf peer session = some node

/-- The event concerns no peer that the table of nodes names otherwise. -/
def ConcernsFree (task : Task PeerId A S D) (event : Event PeerId A S D) : Prop :=
  ∀ peerEvent, Causes task.network event peerEvent → task.network.peers.PeerFree peerEvent

section Steps
variable {task task' : Task PeerId A S D} {event : Event PeerId A S D}
  {peerEvent peerEvent' : PeerEvent PeerId}

omit [DecidableEq PeerId] in
theorem Causes.unique {net : ConsensusNetwork PeerId A S D} (h : Causes net event peerEvent)
    (h' : Causes net event peerEvent') : peerEvent = peerEvent' := by
  cases h with
  | connected =>
    cases h'
    rfl
  | disconnected =>
    cases h'
    rfl
  | authenticated proves =>
    cases h' with
    | authenticated proves' =>
      obtain ⟨rfl, rfl⟩ := proves.unique proves'
      rfl

omit [DecidableEq PeerId] in
theorem Causes.proves {net : ConsensusNetwork PeerId A S D} {remote : PeerId}
    {protocol : String} {raw : List UInt8}
    (h : Causes net (.message remote protocol raw) peerEvent) :
    protocol = net.protocol ∧ ∃ session node, Proves net raw remote session node := by
  cases h with
  | authenticated proves => exact ⟨rfl, _, _, proves⟩

omit [DecidableEq PeerId] in
theorem Reopens.causes {net : ConsensusNetwork PeerId A S D} {peer : PeerId}
    (h : Reopens net.protocol peer event) : ∃ peerEvent, Causes net event peerEvent := by
  cases event with
  | streamOpened remote protocol order =>
    obtain ⟨rfl, rfl⟩ := h
    exact ⟨_, .connected⟩
  | streamClosed remote protocol =>
    obtain ⟨rfl, rfl⟩ := h
    exact ⟨_, .disconnected⟩
  | _ => exact h.elim

omit [DecidableEq PeerId] [PeerIdBytes PeerId] [SignatureScheme A S] [Codec NodeIndex] [Codec S]
  [Codec D] in
private theorem onIncomingData_frame (net : ConsensusNetwork PeerId A S D) (session : SessionId)
    (data : D) : (net.onIncomingData session data).peers = net.peers ∧
      (net.onIncomingData session data).protocol = net.protocol ∧
      (net.onIncomingData session data).localPeerId = net.localPeerId := by
  unfold onIncomingData
  split
  · exact ⟨rfl, rfl, rfl⟩
  · split <;> exact ⟨rfl, rfl, rfl⟩

theorem step_protocol (h : Step task event task') :
    task'.network.protocol = task.network.protocol := by
  cases h with
  | streamOpened _ _ run =>
    obtain ⟨_, rfl⟩ := onPeerConnected_frame run
    rfl
  | message run =>
    cases received_cases run with
    | handed => exact (onIncomingData_frame _ _ _).2.1
    | _ => rfl
  | _ => rfl

theorem step_localPeerId (h : Step task event task') :
    task'.network.localPeerId = task.network.localPeerId := by
  cases h with
  | streamOpened _ _ run =>
    obtain ⟨_, rfl⟩ := onPeerConnected_frame run
    rfl
  | message run =>
    cases received_cases run with
    | handed => exact (onIncomingData_frame _ _ _).2.2
    | _ => rfl
  | _ => rfl

/-- A step does to the tables of peers what its event causes, and nothing otherwise. -/
theorem step_peers (h : Step task event task') :
    (∃ peerEvent, Causes task.network event peerEvent ∧
      task'.network.peers = task.network.peers.handle peerEvent) ∨
    ((∀ peerEvent, ¬Causes task.network event peerEvent) ∧
      task'.network.peers = task.network.peers) := by
  cases h with
  | streamOpened _ _ run =>
    obtain ⟨_, rfl⟩ := onPeerConnected_frame run
    exact .inl ⟨_, .connected, rfl⟩
  | otherStreamOpened _ _ other =>
    refine .inr ⟨?_, rfl⟩
    intro _ hcauses
    cases hcauses
    exact other rfl
  | streamClosed => exact .inl ⟨_, .disconnected, rfl⟩
  | otherStreamClosed _ other =>
    refine .inr ⟨?_, rfl⟩
    intro _ hcauses
    cases hcauses
    exact other rfl
  | message run =>
    cases received_cases run with
    | authenticated proves => exact .inl ⟨_, .authenticated proves, rfl⟩
    | handed decoded =>
      refine .inr ⟨?_, (onIncomingData_frame _ _ _).1⟩
      intro _ hcauses
      obtain ⟨_, _, _, _, _, _, _, hdecode, _⟩ := hcauses.proves
      rw [decoded] at hdecode
      cases hdecode
    | queued unproved =>
      refine .inr ⟨?_, rfl⟩
      intro _ hcauses
      obtain ⟨_, session, node, proves⟩ := hcauses.proves
      exact unproved session node proves
    | ignored unproved =>
      refine .inr ⟨?_, rfl⟩
      intro _ hcauses
      obtain ⟨_, session, node, proves⟩ := hcauses.proves
      exact unproved session node proves
  | otherMessage other =>
    exact .inr ⟨fun _ hcauses => other hcauses.proves.1, rfl⟩
  | _ => exact .inr ⟨by rintro _ ⟨⟩, rfl⟩

variable {peer : PeerId} {session : SessionId} {node : NodeIndex}

/-- As what node a peer is recorded after a step, it was recorded before and its stream did
not reopen, or it has just proved. -/
theorem recorded_cases (h : Step task event task')
    (hnode : task'.network.peers.nodeOf peer session = some node) :
    (task.network.peers.nodeOf peer session = some node ∧
      ¬Reopens task.network.protocol peer event) ∨
    ∃ raw, event = .message peer task.network.protocol raw ∧
      Proves task.network raw peer session node := by
  obtain ⟨peerEvent, hcauses, hpeers⟩ | ⟨hnone, hpeers⟩ := step_peers h
  · rw [hpeers] at hnode
    cases hcauses with
    | connected =>
      rw [Peers.handle, Peers.nodeOf_insert] at hnode
      split at hnode
      · cases hnode
      · next hne => exact .inl ⟨hnode, fun hreopens => hne hreopens.1.symm⟩
    | disconnected =>
      rw [Peers.handle, Peers.nodeOf_remove] at hnode
      split at hnode
      · cases hnode
      · next hne => exact .inl ⟨hnode, fun hreopens => hne hreopens.1.symm⟩
    | authenticated proves =>
      rw [Peers.handle, Peers.nodeOf_authenticate] at hnode
      split at hnode
      · next hentry =>
        obtain ⟨rfl, rfl⟩ := hentry
        cases hnode
        exact .inr ⟨_, rfl, proves⟩
      · exact .inl ⟨hnode, id⟩
  · rw [hpeers] at hnode
    refine .inl ⟨hnode, ?_⟩
    intro hreopens
    obtain ⟨peerEvent, hcauses⟩ := hreopens.causes
    exact hnone peerEvent hcauses

/-- The peer that is named for a node after a step was named before, or has just proved. -/
theorem named_cases (h : Step task event task')
    (hget : task'.network.peers.get session node = some peer) :
    task.network.peers.get session node = some peer ∨
    ∃ raw, event = .message peer task.network.protocol raw ∧
      Proves task.network raw peer session node := by
  obtain ⟨peerEvent, hcauses, hpeers⟩ | ⟨_, hpeers⟩ := step_peers h
  · rw [hpeers] at hget
    cases hcauses with
    | connected => exact .inl hget
    | disconnected =>
      rw [Peers.handle, Peers.get_remove] at hget
      split at hget
      · cases hget
      · exact .inl hget
    | authenticated proves =>
      rw [Peers.handle, Peers.get_authenticate] at hget
      split at hget
      · next hentry =>
        obtain ⟨rfl, rfl⟩ := hentry
        cases hget
        exact .inr ⟨_, rfl, proves⟩
      · exact .inl hget
  · rw [hpeers] at hget
    exact .inl hget

end Steps

section Provenance
variable {initial task task' : Task PeerId A S D} {events later : List (Event PeerId A S D)}
  {event : Event PeerId A S D} {peer : PeerId} {session : SessionId} {node : NodeIndex}
  {localPeerId : PeerId} {protocol : String}

theorem Backed.step (h : Backed initial events task peer session node later)
    (hstep : Step task event task') :
    Backed initial (event :: events) task' peer session node (event :: later) := by
  obtain ⟨raw, earlier, middle, rfl, hbefore, hproves, hafter⟩ := h
  exact ⟨raw, earlier, middle, rfl, hbefore, hproves, hafter.tail hstep⟩

theorem Backed.now {raw : List UInt8} (hrun : Run Step initial events task)
    (hproves : Proves task.network raw peer session node)
    (hstep : Step task (.message peer task.network.protocol raw) task') :
    Backed initial (.message peer task.network.protocol raw :: events) task' peer session node
      [] :=
  ⟨raw, events, task, rfl, hrun, hproves, .tail .refl hstep⟩

/-- Every entry of the tables was proved by its peer. As what node a peer is recorded, it
has proved since its stream was last opened or closed. -/
structure Provenance (initial : Task PeerId A S D) (protocol : String)
    (events : List (Event PeerId A S D)) (task : Task PeerId A S D) : Prop where
  protocol_eq : task.network.protocol = protocol
  recorded : ∀ peer session node, task.network.peers.nodeOf peer session = some node →
    ∃ later, Backed initial events task peer session node later ∧
      ∀ event ∈ later, ¬Reopens protocol peer event
  named : ∀ session node peer, task.network.peers.get session node = some peer →
    ∃ later, Backed initial events task peer session node later

theorem provenance_initial : Provenance (Task.initial localPeerId protocol) protocol []
    (Task.initial localPeerId protocol : Task PeerId A S D) where
  protocol_eq := rfl
  recorded _ _ _ h := by simp [Task.initial, new] at h
  named _ _ _ h := by simp [Task.initial, new] at h

omit [DecidableEq PeerId] [PeerIdBytes PeerId] [SignatureScheme A S] [Codec NodeIndex] [Codec S]
  [Codec D] in
private theorem reopens_cons (hevent : ¬Reopens protocol peer event)
    (h : ∀ event ∈ later, ¬Reopens protocol peer event) :
    ∀ event' ∈ event :: later, ¬Reopens protocol peer event' := by
  intro event' hmem
  cases hmem with
  | head => exact hevent
  | tail _ hmem => exact h event' hmem

theorem Provenance.step (hrun : Run Step initial events task)
    (h : Provenance initial protocol events task) (hstep : Step task event task') :
    Provenance initial protocol (event :: events) task' := by
  have hprotocol := h.protocol_eq
  subst hprotocol
  refine ⟨step_protocol hstep, ?_, ?_⟩
  · intro peer session node hnode
    obtain ⟨hbefore, hevent⟩ | ⟨raw, rfl, hproves⟩ := recorded_cases hstep hnode
    · obtain ⟨later, hbacked, hlater⟩ := h.recorded peer session node hbefore
      exact ⟨event :: later, hbacked.step hstep, reopens_cons hevent hlater⟩
    · exact ⟨[], .now hrun hproves hstep, by simp⟩
  · intro session node peer hget
    obtain hbefore | ⟨raw, rfl, hproves⟩ := named_cases hstep hget
    · obtain ⟨later, hbacked⟩ := h.named session node peer hbefore
      exact ⟨event :: later, hbacked.step hstep⟩
    · exact ⟨[], .now hrun hproves hstep⟩

theorem provenance_of_run (hrun : Run Step (Task.initial localPeerId protocol) events task) :
    Provenance (Task.initial localPeerId protocol) protocol events task := by
  apply hrun.history_invariant (Provenance (Task.initial localPeerId protocol) protocol)
  · exact provenance_initial
  · exact fun _ _ _ _ hrun h hstep => h.step hrun hstep

/-- Data reaches the user of a session by a message only, from a peer that is authenticated
for the session. -/
theorem handed_data (hstep : Step task event task')
    (hnew : ¬userData task'.network session <+: userData task.network session) :
    ∃ peer raw data rest, event = .message peer task.network.protocol raw ∧
      Codec.decode raw = some ((.ofData session data : InternalMessage PeerId S D), rest) ∧
      task.network.peers.isAuthenticated peer session = true ∧
      userData task'.network session = userData task.network session ++ [data] := by
  have hchanges := session_changes hstep session
  unfold userData at hnew ⊢
  generalize task.network.sessions.lookup session = before at hchanges hnew ⊢
  generalize task'.network.sessions.lookup session = after at hchanges hnew ⊢
  cases hchanges with
  | unchanged => exact absurd List.prefix_rfl hnew
  | started => exact absurd List.nil_prefix hnew
  | @handed sessionData remote raw data rest brings decoded authenticated =>
    cases halive : sessionData.dataForUser.receiverAlive with
    | true =>
      refine ⟨remote, raw, data, rest, brings, decoded, authenticated, ?_⟩
      rw [sendToUser_alive halive]
      rfl
    | false =>
      rw [sendToUser_dropped halive] at hnew
      exact absurd List.prefix_rfl hnew
  | dropped => exact absurd List.prefix_rfl hnew
  | removed => exact absurd List.nil_prefix hnew

/-- Authentications are proved. Every entry of the tables of peers goes back to an earlier
message from its peer that proved it; and data is handed to the user of a session only as
part of a message from a peer that, since its stream was last opened or closed, has proved
that it is a node of this session. -/
theorem authentications_proved
    (hrun : Run Step (Task.initial localPeerId protocol) events task) :
    Provenance (Task.initial localPeerId protocol) protocol events task ∧
      ∀ event task' session, Step task event task' →
        ¬userData task'.network session <+: userData task.network session →
        ∃ peer raw data rest node later, event = .message peer protocol raw ∧
          Codec.decode raw = some ((.ofData session data : InternalMessage PeerId S D), rest) ∧
          userData task'.network session = userData task.network session ++ [data] ∧
          Backed (Task.initial localPeerId protocol) events task peer session node later ∧
          ∀ event ∈ later, ¬Reopens protocol peer event := by
  have hprovenance := provenance_of_run hrun
  refine ⟨hprovenance, ?_⟩
  intro event task' session hstep hnew
  obtain ⟨peer, raw, data, rest, rfl, hdecode, hauthenticated, hdata⟩ := handed_data hstep hnew
  rw [Peers.isAuthenticated_eq] at hauthenticated
  obtain ⟨node, hnode⟩ := Option.isSome_iff_exists.mp hauthenticated
  obtain ⟨later, hbacked, hlater⟩ := hprovenance.recorded peer session node hnode
  exact ⟨peer, raw, data, rest, node, later, by rw [hprovenance.protocol_eq], hdecode, hdata,
    hbacked, hlater⟩

end Provenance

section Sending
variable {net : ConsensusNetwork PeerId A S D} {task : Task PeerId A S D}
  {events : List (Event PeerId A S D)} {localPeerId : PeerId} {protocol : String}

omit [DecidableEq PeerId] [SignatureScheme A S] in
private theorem sendMessage_peer {message message' : InternalMessage PeerId S D}
    {peer peer' : PeerId} (h : net.sendMessage message peer = net.sendMessage message' peer') :
    peer = peer' := by
  simp only [sendMessage, NetworkCall.sendMessage.injEq] at h
  exact h.1

omit [SignatureScheme A S] in
/-- Data is sent to authenticated peers only, whatever command is next, exactly if the
tables match. -/
theorem sendsAuthenticated_iff [Inhabited D] : net.SendsAuthenticated ↔ net.peers.Matched := by
  constructor
  · intro hsends session node peer hget
    obtain ⟨peer', hcall, _, hnode⟩ := hsends session default (.target node) [] []
      (net.sendMessage (.ofData session default) peer) (by simp [onCommand, hget])
    rw [sendMessage_peer hcall]
    exact hnode node rfl
  · intro hmatched session data recipient peerOrder nodeOrder call hcall
    cases recipient with
    | target node =>
      simp only [onCommand] at hcall
      split at hcall
      · next peer hget =>
        refine ⟨peer, List.mem_singleton.mp hcall, hmatched.isAuthenticated hget, ?_⟩
        intro node' hnode
        cases hnode
        exact hmatched session node peer hget
      · cases hcall
    | all =>
      simp only [onCommand, List.mem_map] at hcall
      obtain ⟨peer, hpeer, rfl⟩ := hcall
      obtain ⟨node, hget⟩ := Peers.get_of_mem_peersAuthenticatedFor hpeer
      exact ⟨peer, rfl, hmatched.isAuthenticated hget, by simp⟩

omit [SignatureScheme A S] in
private theorem initial_sendsAuthenticated [Inhabited D] :
    (Task.initial localPeerId protocol : Task PeerId A S D).network.SendsAuthenticated := by
  rw [sendsAuthenticated_iff]
  intro session node peer hget
  simp [Task.initial, new] at hget

/-- Data goes to authenticated peers only. The runs in which every command for data would
at any time send it to authenticated peers only, and to a node only where the peer is
recorded as this node, are those in which every peer concerned by an event is free; and in
such a run, after the stream of a peer has closed, no data goes to it until it has proved
again that it is a node of the session. -/
theorem sends_authenticated_iff [Inhabited D] :
    (Run (EndingIn Step (fun t => t.network.SendsAuthenticated)) (Task.initial localPeerId protocol)
        events task ↔
      Run (Guarded Step ConcernsFree) (Task.initial localPeerId protocol) events task) ∧
    (Run (Guarded Step ConcernsFree) (Task.initial localPeerId protocol) events task →
      ∀ peer later earlier, events = later ++ .streamClosed peer protocol :: earlier →
      ∀ session data recipient peerOrder nodeOrder,
        task.network.sendMessage (.ofData session data) peer ∈
          task.network.onCommand peerOrder nodeOrder (.ofData session data recipient) →
        ∃ node since, Backed (Task.initial localPeerId protocol) events task peer session node since ∧
          since.length < later.length) := by
  have hiff : Run (EndingIn Step (fun t => t.network.SendsAuthenticated))
        (Task.initial localPeerId protocol) events task ↔
      Run (Guarded Step ConcernsFree) (Task.initial localPeerId protocol) events task := by
    apply Run.endingIn_iff_guarded
    · exact initial_sendsAuthenticated
    · intro before event after hsends hstep
      rw [sendsAuthenticated_iff] at hsends ⊢
      obtain ⟨peerEvent, hcauses, hpeers⟩ | ⟨hnone, hpeers⟩ := step_peers hstep
      · rw [hpeers, Peers.matched_step peerEvent hsends]
        constructor
        · intro hfree peerEvent' hcauses'
          rw [← hcauses.unique hcauses']
          exact hfree
        · exact fun hfree => hfree peerEvent hcauses
      · rw [hpeers]
        exact iff_of_true hsends (fun peerEvent hcauses => absurd hcauses (hnone peerEvent))
  refine ⟨hiff, ?_⟩
  intro hrun peer later earlier hevents session data recipient peerOrder nodeOrder hcall
  have hprovenance := provenance_of_run (hrun.mono (fun _ _ _ h => h.2))
  have hsends := (hiff.mpr hrun).endingIn_good initial_sendsAuthenticated
  obtain ⟨peer', hpeer, hauthenticated, _⟩ :=
    hsends session data recipient peerOrder nodeOrder _ hcall
  rw [← sendMessage_peer hpeer, Peers.isAuthenticated_eq] at hauthenticated
  obtain ⟨node, hnode⟩ := Option.isSome_iff_exists.mp hauthenticated
  obtain ⟨since, hbacked, hsince⟩ := hprovenance.recorded peer session node hnode
  have hsplit := hbacked
  obtain ⟨raw, earlier', middle, hevents', _⟩ := hsplit
  refine ⟨node, since, hbacked, Run.length_lt_of_split (hevents'.symm.trans hevents) ?_ (by simp)⟩
  exact fun hmem => hsince _ hmem ⟨rfl, rfl⟩

end Sending

end Handling
section Example
attribute [local instance] nodeIndexCodec

/-- A component in which a session with two authorities runs, before the messages. -/
def pairSession (messages : List (String × List UInt8)) (peers : Peers PlainPeer) :
    Task PlainPeer PlainKey PlainSignature ℕ :=
  let net := (new ⟨9⟩ "p").startSession ⟨0⟩ ⟨⟨0⟩, ⟨7⟩, [⟨7⟩, ⟨8⟩]⟩
  ⟨{ net.1 with peers := peers }, .receiving ⟨1⟩ messages, [net.2], []⟩

theorem pairSession_run (messages : List (String × List UInt8)) :
    Run Step (Task.initial ⟨9⟩ "p") [.notificationsReceived ⟨1⟩ messages,
      .sessionStarted ⟨0⟩ ⟨⟨0⟩, ⟨7⟩, [⟨7⟩, ⟨8⟩]⟩] (pairSession messages .new) := by
  have hcreated : ∃ id authorities,
      KeyBox.new id authorities = .ok (⟨⟨0⟩, ⟨7⟩, [⟨7⟩, ⟨8⟩]⟩ : KeyBox PlainKey) :=
    ⟨⟨0⟩, [⟨7⟩, ⟨8⟩], rfl⟩
  have hstarted : Run Step (Task.initial ⟨9⟩ "p" : Task PlainPeer PlainKey PlainSignature ℕ)
      [.sessionStarted ⟨0⟩ ⟨⟨0⟩, ⟨7⟩, [⟨7⟩, ⟨8⟩]⟩] _ :=
    .tail .refl (.sessionStarted ⟨0⟩ hcreated)
  exact hstarted.tail (.notificationsReceived (⟨1⟩ : PlainPeer) messages)

private theorem pairSession_authentication (messages : List (String × List UInt8))
    (peers : Peers PlainPeer) (node : NodeIndex) (hnode : node = ⟨0⟩ ∨ node = ⟨1⟩) :
    Step (pairSession (("p", plainAuthentication ⟨1⟩ node) :: messages) peers)
      (.message ⟨1⟩ "p" (plainAuthentication ⟨1⟩ node))
      (pairSession messages (peers.authenticate ⟨1⟩ ⟨0⟩ node)) := by
  have hproves : Proves (pairSession messages peers).network (plainAuthentication ⟨1⟩ node)
      ⟨1⟩ ⟨0⟩ node := by
    obtain rfl | rfl := hnode
    · exact ⟨⟨⟨0⟩, ⟨7, Codec.encode (⟨⟨0⟩, ⟨1⟩, ⟨0⟩⟩ : AuthData PlainPeer)⟩⟩, [], _, ⟨7⟩,
        by decide, rfl, rfl, by decide⟩
    · exact ⟨⟨⟨1⟩, ⟨8, Codec.encode (⟨⟨0⟩, ⟨1⟩, ⟨1⟩⟩ : AuthData PlainPeer)⟩⟩, [], _, ⟨8⟩,
        by decide, rfl, rfl, by decide⟩
  exact .message (onIncomingMessage_of_proves hproves)

theorem authentications_proved_once :
    ∃ (events : List (Event PlainPeer PlainKey PlainSignature ℕ)) (task : _) (later : _),
      Run Step (Task.initial ⟨9⟩ "p") events task ∧
        Backed (Task.initial ⟨9⟩ "p") events task ⟨1⟩ ⟨0⟩ ⟨0⟩ later := by
  have hrun := (pairSession_run [("p", plainAuthentication ⟨1⟩ ⟨0⟩)]).tail
    (pairSession_authentication [] .new ⟨0⟩ (.inl rfl))
  have hnode : ((Peers.new : Peers PlainPeer).authenticate ⟨1⟩ ⟨0⟩ ⟨0⟩).nodeOf ⟨1⟩ ⟨0⟩ =
      some ⟨0⟩ := by
    rw [Peers.nodeOf_authenticate, if_pos ⟨rfl, rfl⟩]
  obtain ⟨later, hbacked, _⟩ := (authentications_proved hrun).1.recorded ⟨1⟩ ⟨0⟩ ⟨0⟩ hnode
  exact ⟨_, _, later, hrun, hbacked⟩

/-- A peer authenticates as two nodes, one after the other, and its stream closes. What is
sent to the first node still goes to this peer. -/
theorem data_sent_after_stream_closed :
    ∃ (events : List (Event PlainPeer PlainKey PlainSignature ℕ)) (task : _),
      Run Step (Task.initial ⟨9⟩ "p") (.streamClosed ⟨1⟩ "p" :: events) task ∧
        task.network.peers.isAuthenticated ⟨1⟩ ⟨0⟩ = false ∧
        task.network.onCommand [] [] (.ofData ⟨0⟩ 5 (.target ⟨0⟩)) =
          [task.network.sendMessage (.ofData ⟨0⟩ 5) ⟨1⟩] := by
  have hboth := ((pairSession_run [("p", plainAuthentication ⟨1⟩ ⟨0⟩),
    ("p", plainAuthentication ⟨1⟩ ⟨1⟩)]).tail
      (pairSession_authentication _ .new ⟨0⟩ (.inl rfl))).tail
        (pairSession_authentication [] _ ⟨1⟩ (.inr rfl))
  have hrun := ((hboth.tail .messagesDone).tail .sessionsRetained).tail (.streamClosed ⟨1⟩)
  refine ⟨_, _, hrun, ?_, ?_⟩
  · decide
  · rfl

end Example
end AlephNode.ConsensusNetwork
