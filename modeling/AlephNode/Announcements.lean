import AlephNode.AuthenticatedPeers

/-!
# Announcements of sessions

A session is announced to peers in two ways. A peer that connects gets one command for
each session of the map; a session that is started is broadcast later, to the peers of that
moment. Whatever the order of these moves, what a connected peer has not been sent of a
session is still queued, or the start of the session is not finished.
-/
namespace AlephNode.ConsensusNetwork

section Announcements
variable {PeerId A S D : Type}

def announcement (sessionData : SessionData PeerId A S D) : MetaMessage PeerId S :=
  .authentication sessionData.authData sessionData.authSignature

variable [DecidableEq PeerId] [PeerIdBytes PeerId] [SignatureScheme A S] [Codec NodeIndex]
  [Codec S] [Codec D]

inductive Queues (task : Task PeerId A S D) (event : Event PeerId A S D) :
    SessionCommand PeerId S D → Prop
  | announced {session sessionData remote}
      (known : task.network.sessions.lookup session = some sessionData) :
      Queues task event (.ofMeta (announcement sessionData) (.target remote))
  | requested {session remote} :
      Queues task event (.ofMeta (.authenticationRequest session) (.target remote))
  | broadcast {message} (starting : message ∈ task.starting) :
      Queues task event (.ofMeta message .all)
  | data {session data recipient} (handed : event = .dataQueued session data recipient) :
      Queues task event (.ofData session data recipient)

/-- What is still to be done about a message that a peer has to be sent after `opening`. -/
inductive Pledged (peer : PeerId) (opening : ℕ) (task : Task PeerId A S D)
    (message : MetaMessage PeerId S) : Prop
  | sent (sent : task.network.sendMessage (.ofMeta message) peer ∈ task.calls.drop opening)
  | queuedForPeer (queued : .ofMeta message (.target peer) ∈ task.network.commands.messages)
  | queuedForAll (queued : .ofMeta message .all ∈ task.network.commands.messages)
  | starting (starting : message ∈ task.starting)

/-- The peer is known, and no announcement to it is missed while the component runs. -/
structure Announced (peer : PeerId) (opening : ℕ) (task : Task PeerId A S D) : Prop where
  connected : peer ∈ task.network.peers.allPeers.keys
  alive : task.loop ≠ .ended → task.network.commands.receiverAlive = true
  opened : opening ≤ task.calls.length
  pledged : task.loop ≠ .ended → ∀ session sessionData,
    task.network.sessions.lookup session = some sessionData →
      Pledged peer opening task (announcement sessionData)

section Steps
variable {task task' : Task PeerId A S D} {event : Event PeerId A S D} {peer : PeerId}
  {opening : ℕ} {message : MetaMessage PeerId S} {session : SessionId}
  {sessionData' : SessionData PeerId A S D}

/-- A session of the map was in the map before, with the same authentication, and a message
may have added to its data; or it has just been started. -/
theorem session_cases (hstep : Step task event task')
    (h : task'.network.sessions.lookup session = some sessionData') :
    (∃ sessionData, task.network.sessions.lookup session = some sessionData ∧
      sessionData'.authData = sessionData.authData ∧
      sessionData'.authSignature = sessionData.authSignature ∧
      (sessionData'.dataForUser.messages = sessionData.dataForUser.messages ∨
        ∃ remote raw data rest, event = .message remote task.network.protocol raw ∧
          Codec.decode raw = some ((.ofData session data : InternalMessage PeerId S D), rest) ∧
          sessionData'.dataForUser.messages = sessionData.dataForUser.messages ++ [data])) ∨
    ∃ keychain, event = .sessionStarted session keychain ∧
      sessionData'.authData = ⟨session, task.network.localPeerId, keychain.id⟩ ∧
      sessionData'.dataForUser.messages = [] ∧ announcement sessionData' ∈ task'.starting := by
  have hchanges := session_changes hstep session
  rw [h] at hchanges
  generalize task.network.sessions.lookup session = before at hchanges
  cases hchanges with
  | unchanged => exact .inl ⟨sessionData', rfl, rfl, rfl, .inl rfl⟩
  | started keychain starts =>
    refine .inr ⟨keychain, starts, rfl, rfl, ?_⟩
    subst starts
    cases hstep
    exact List.mem_cons_self
  | @handed sessionData remote raw data rest brings decoded =>
    left
    cases halive : sessionData.dataForUser.receiverAlive with
    | true =>
      rw [sendToUser_alive halive]
      exact ⟨sessionData, rfl, rfl, rfl, .inr ⟨remote, raw, data, rest, brings, decoded, rfl⟩⟩
    | false =>
      rw [sendToUser_dropped halive]
      exact ⟨sessionData, rfl, rfl, rfl, .inl rfl⟩
  | @dropped sessionData => exact .inl ⟨sessionData, rfl, rfl, rfl, .inl rfl⟩

/-- A session of the map was in the map before, with the same announcement, or its start is
not finished. -/
theorem announcement_cases (hstep : Step task event task')
    (h : task'.network.sessions.lookup session = some sessionData') :
    (∃ sessionData, task.network.sessions.lookup session = some sessionData ∧
      announcement sessionData' = announcement sessionData) ∨
    announcement sessionData' ∈ task'.starting := by
  obtain ⟨sessionData, hlookup, hauthData, hsignature, _⟩ | ⟨_, _, _, _, hstarting⟩ :=
    session_cases hstep h
  · exact .inl ⟨sessionData, hlookup, by rw [announcement, hauthData, hsignature, announcement]⟩
  · exact .inr hstarting

private theorem queued_by_message {net net' : ConsensusNetwork PeerId A S D} {remote : PeerId}
    {raw : List UInt8} {starting : List (MetaMessage PeerId S)} {calls : List (NetworkCall PeerId)}
    {loop : Loop PeerId} (h : net.onIncomingMessage remote raw = .ok net') :
    ∃ commands, net'.commands = net.commands.sendAll commands ∧
      ∀ command ∈ commands, Queues ⟨net, loop, starting, calls⟩ event command := by
  have hnone : net.commands = net.commands.sendAll [] ∧
      ∀ command ∈ [], Queues ⟨net, loop, starting, calls⟩ event command :=
    ⟨(Channel.sendAll_nil _).symm, nofun⟩
  unfold onIncomingMessage at h
  split at h
  · next session data _ _ =>
    split at h
    · cases h
      refine ⟨[], ?_⟩
      unfold onIncomingData
      split
      · exact hnone
      · split <;> exact hnone
    · rw [queueCommand_frame h]
      refine ⟨_, rfl, ?_⟩
      intro command hcommand
      rw [List.mem_singleton.mp hcommand]
      exact .requested
  · next message _ _ =>
    cases message with
    | authentication authData signature =>
      simp only [onIncomingMeta] at h
      split at h
      · unfold onIncomingAuthentication at h
        dsimp only at h
        split at h
        · cases h
          exact ⟨[], hnone⟩
        · obtain ⟨valid, _, h⟩ := bind_eq_ok.mp h
          split at h <;> cases h <;> exact ⟨[], hnone⟩
      · cases h
        exact ⟨[], hnone⟩
    | authenticationRequest session =>
      simp only [onIncomingMeta] at h
      split at h
      · next sessionData hlookup =>
        rw [queueCommand_frame h]
        refine ⟨_, rfl, ?_⟩
        intro command hcommand
        rw [List.mem_singleton.mp hcommand]
        exact .announced hlookup
      · cases h
        exact ⟨[], hnone⟩
  · cases h
    exact ⟨[], hnone⟩

/-- The queue of commands grows and nothing is sent, or its oldest command is carried out. -/
theorem queue_cases (hstep : Step task event task') :
    (∃ later new, task'.network.commands.messages = task.network.commands.messages ++ later ∧
      (∀ command ∈ later, Queues task event command) ∧ task'.calls = task.calls ++ new ∧
      ∀ remote protocol message, .sendMessage remote protocol message ∉ new) ∨
    ∃ command peerOrder nodeOrder, event = .command command peerOrder nodeOrder ∧
      task.network.commands.messages = command :: task'.network.commands.messages ∧
      Enumerates peerOrder task.network.peers.allPeers.keys ∧
      (∀ sessionId nodes, task.network.peers.toPeer.lookup sessionId = some nodes →
        (∃ data recipient, command = .ofData sessionId data recipient) →
        Enumerates nodeOrder nodes.keys) ∧
      task'.calls = task.calls ++ task.network.onCommand peerOrder nodeOrder command := by
  have hsent : ∀ {starting : List (MetaMessage PeerId S)} {loop : Loop PeerId}
      {net : ConsensusNetwork PeerId A S D} {calls : List (NetworkCall PeerId)} (commands more),
      (∀ command ∈ more, Queues ⟨net, loop, starting, calls⟩ event command) →
      ∃ later new, (Channel.sendAll commands more).messages = commands.messages ++ later ∧
        (∀ command ∈ later, Queues ⟨net, loop, starting, calls⟩ event command) ∧
        calls = calls ++ new ∧
        ∀ remote protocol message, .sendMessage remote protocol message ∉ new := by
    intro starting loop net calls commands more hmore
    obtain ⟨later, hlater, hsubset⟩ := commands.sendAll_messages more
    exact ⟨later, [], hlater, fun command hc => hmore command (hsubset hc),
      (List.append_nil _).symm, nofun⟩
  have hsame : ∃ later new, task.network.commands.messages =
      task.network.commands.messages ++ later ∧ (∀ command ∈ later, Queues task event command) ∧
      task.calls = task.calls ++ new ∧
      ∀ remote protocol message, .sendMessage remote protocol message ∉ new :=
    ⟨[], [], (List.append_nil _).symm, nofun, (List.append_nil _).symm, nofun⟩
  cases hstep with
  | syncConnected | syncDisconnected =>
    exact .inl ⟨[], _, (List.append_nil _).symm, nofun, rfl, by simp⟩
  | streamOpened _ _ run =>
    rw [onPeerConnected_eq run]
    refine .inl (hsent _ _ ?_)
    intro command hcommand
    obtain ⟨sessionData, hmem, rfl⟩ := List.mem_map.mp hcommand
    obtain ⟨session, _, hlookup⟩ := List.mem_filterMap.mp hmem
    exact .announced hlookup
  | message run =>
    obtain ⟨commands, hcommands, hqueues⟩ := queued_by_message run
    rw [hcommands]
    exact .inl (hsent _ _ hqueues)
  | command next enumerates enumerates_nodes =>
    exact .inr ⟨_, _, _, rfl, next, enumerates, enumerates_nodes, rfl⟩
  | authenticationQueued pending =>
    refine .inl (hsent _ _ ?_)
    intro command hcommand
    rw [List.mem_singleton.mp hcommand]
    exact .broadcast (by simp [pending])
  | dataQueued =>
    refine .inl (hsent _ _ ?_)
    intro command hcommand
    rw [List.mem_singleton.mp hcommand]
    exact .data rfl
  | _ => exact .inl hsame

theorem step_calls (hstep : Step task event task') :
    task.calls <+: task'.calls := by
  cases hstep with
  | syncConnected | syncDisconnected | command => exact List.prefix_append _ _
  | _ => exact List.prefix_rfl

/-- What is still to be broadcast was so before, or its session has just been started. -/
theorem started_cases (hstep : Step task event task') (h : message ∈ task'.starting) :
    message ∈ task.starting ∨ ∃ session keychain signature,
      event = .sessionStarted session keychain ∧
      message = .authentication ⟨session, task.network.localPeerId, keychain.id⟩ signature := by
  cases hstep with
  | @sessionStarted _ _ _ _ keychain session =>
    obtain rfl | hbefore := List.mem_cons.mp h
    · exact .inr ⟨session, keychain, _, rfl, rfl⟩
    · exact .inl hbefore
  | authenticationQueued pending =>
    left
    dsimp only at pending h ⊢
    rw [pending, List.mem_append, List.mem_cons]
    obtain hbefore | hafter := List.mem_append.mp h
    · exact .inl hbefore
    · exact .inr (.inr hafter)
  | _ => exact .inl h

/-- A started session whose broadcast is no longer pending has been queued. -/
theorem starting_cases (hstep : Step task event task')
    (halive : task.network.commands.receiverAlive = true) (h : message ∈ task.starting) :
    message ∈ task'.starting ∨ .ofMeta message .all ∈ task'.network.commands.messages := by
  cases hstep with
  | sessionStarted => exact .inl (List.mem_cons_of_mem _ h)
  | @authenticationQueued net _ starting _ queued before after pending =>
    dsimp only at h halive ⊢
    rw [pending, List.mem_append, List.mem_cons] at h
    rw [List.mem_append]
    obtain hbefore | rfl | hafter := h
    · exact .inl (.inl hbefore)
    · exact .inr (by simp [tryQueueCommand, Channel.sendAll, halive])
    · exact .inl (.inr hafter)
  | _ => exact .inl h

/-- A peer that stays connected is sent what it was to be sent, or it still is. -/
theorem Pledged.step (h : Pledged peer opening task message) (hstep : Step task event task')
    (hconnected : peer ∈ task.network.peers.allPeers.keys)
    (halive : task.network.commands.receiverAlive = true) (hopened : opening ≤ task.calls.length) :
    Pledged peer opening task' message := by
  have hsend : task'.network.sendMessage (.ofMeta message) peer =
      task.network.sendMessage (.ofMeta message) peer := by
    simp only [sendMessage, step_protocol hstep]
  have hcalls := step_calls hstep
  -- what is queued stays queued or is sent
  have hqueued : ∀ recipient, .ofMeta message recipient ∈ task.network.commands.messages →
      (recipient = .all ∨ recipient = .target peer) →
      .ofMeta message recipient ∈ task'.network.commands.messages ∨
        task'.network.sendMessage (.ofMeta message) peer ∈ task'.calls.drop opening := by
    intro recipient hmem hrecipient
    obtain ⟨later, _, hlater, _⟩ | ⟨command, peerOrder, nodeOrder, _, hnext, henumerates, _, hnew⟩ :=
      queue_cases hstep
    · rw [hlater]
      exact .inl (List.mem_append_left _ hmem)
    · rw [hnext, List.mem_cons] at hmem
      obtain rfl | hrest := hmem
      · right
        rw [hnew, List.drop_append_of_le_length hopened, hsend]
        apply List.mem_append_right
        obtain rfl | rfl := hrecipient
        · exact List.mem_map_of_mem ((henumerates.2 peer).mpr hconnected)
        · exact List.mem_singleton_self _
      · exact .inl hrest
  cases h with
  | sent sent =>
    obtain ⟨new, hnew⟩ := hcalls
    apply Pledged.sent
    rw [← hnew, List.drop_append_of_le_length hopened, hsend]
    exact List.mem_append_left _ sent
  | queuedForPeer queued =>
    obtain hmem | hsent := hqueued _ queued (.inr rfl)
    · exact .queuedForPeer hmem
    · exact .sent hsent
  | queuedForAll queued =>
    obtain hmem | hsent := hqueued _ queued (.inl rfl)
    · exact .queuedForAll hmem
    · exact .sent hsent
  | starting starting =>
    obtain hmem | hmem := starting_cases hstep halive starting
    · exact .starting hmem
    · exact .queuedForAll hmem

theorem connected_step (h : peer ∈ task.network.peers.allPeers.keys)
    (hstep : Step task event task') (hevent : event ≠ .streamClosed peer task.network.protocol) :
    peer ∈ task'.network.peers.allPeers.keys := by
  obtain ⟨peerEvent, hcauses, hpeers⟩ | ⟨_, hpeers⟩ := step_peers hstep
  · rw [hpeers]
    cases hcauses with
    | connected => exact Peers.mem_allPeers_insert h
    | @disconnected remote =>
      apply Peers.mem_allPeers_remove h
      rintro rfl
      exact hevent rfl
    | authenticated => exact Peers.mem_allPeers_authenticate h
  · rwa [hpeers]

theorem ended_step (hstep : Step task event task') (h : task'.loop ≠ .ended) :
    task.loop ≠ .ended := by
  cases hstep with
  | sessionStarted | authenticationQueued | dataQueued | dataNetworkDropped => exact h
  | _ => simp

/-- A step other than the end of the stream of the peer misses no announcement to it. -/
theorem Announced.step (h : Announced peer opening task) (hstep : Step task event task')
    (hevent : event ≠ .streamClosed peer task.network.protocol) : Announced peer opening task' := by
  constructor
  · exact connected_step h.connected hstep hevent
  · exact commands_alive_step h.alive hstep
  · exact h.opened.trans (step_calls hstep).length_le
  · intro hrunning session sessionData hlookup
    have hbefore := ended_step hstep hrunning
    obtain ⟨old, hold, hsame⟩ | hstarting := announcement_cases hstep hlookup
    · rw [hsame]
      have hpledged := h.pledged hbefore session old hold
      exact hpledged.step hstep h.connected (h.alive hbefore) h.opened
    · exact .starting hstarting

/-- When the stream of a peer opens, every session of the map is announced to it. -/
theorem announced_opened {protocol : String} {order : List SessionId}
    (halive : task.loop ≠ .ended → task.network.commands.receiverAlive = true)
    (hprotocol : task.network.protocol = protocol)
    (hstep : Step task (.streamOpened peer protocol order) task') :
    Announced peer task'.calls.length task' := by
  have halive' := commands_alive_step halive hstep
  cases hstep with
  | streamOpened _ enumerates run =>
    have heq := onPeerConnected_eq run
    subst heq
    refine ⟨Peers.mem_allPeers_insert_self, halive', Nat.le_refl _, ?_⟩
    intro _ session sessionData hlookup
    apply Pledged.queuedForPeer
    have hmem : session ∈ order := by
      rw [enumerates.2, Finmap.mem_keys, ← Finmap.lookup_isSome, hlookup]
      rfl
    have hreceiver := halive (by simp)
    dsimp only at hreceiver
    simp only [Channel.sendAll, if_pos hreceiver]
    apply List.mem_append_right
    rw [List.mem_map]
    exact ⟨sessionData, List.mem_filterMap.mpr ⟨session, hmem, hlookup⟩, rfl⟩
  | otherStreamOpened _ _ other => exact absurd hprotocol.symm other

end Steps

section Runs
variable {localPeerId : PeerId} {protocol : String} {earlier later : List (Event PeerId A S D)}
  {before opened task : Task PeerId A S D} {peer : PeerId} {order : List SessionId} {opening : ℕ}

theorem protocol_of_run (hrun : Run Step opened later task) :
    task.network.protocol = opened.network.protocol := by
  apply hrun.invariant (fun t => t.network.protocol = opened.network.protocol) rfl
  intro _ _ _ h hstep
  rw [step_protocol hstep, h]

theorem announced_of_run (h : Announced peer opening opened) (hrun : Run Step opened later task)
    (hconnected : .streamClosed peer opened.network.protocol ∉ later) :
    Announced peer opening task := by
  induction hrun with
  | refl => exact h
  | tail hrun hstep ih =>
    rw [List.mem_cons, not_or] at hconnected
    apply (ih hconnected.2).step hstep
    rw [protocol_of_run hrun]
    exact Ne.symm hconnected.1

/-- While the component runs, no session is being started and no command is queued, every
peer whose stream was opened and has not been closed since, has been sent the
authentication of every session of the map since that opening. -/
theorem connected_peers_announced_to
    (hrun : Run Step (Task.initial localPeerId protocol) earlier before)
    (hopened : Step before (.streamOpened peer protocol order) opened)
    (hrun' : Run Step opened later task) (hconnected : .streamClosed peer protocol ∉ later)
    (hrunning : task.loop ≠ .ended) (hstarting : task.starting = [])
    (hempty : task.network.commands.messages = []) (session : SessionId)
    (sessionData : SessionData PeerId A S D)
    (hsession : task.network.sessions.lookup session = some sessionData) :
    .sendMessage peer protocol (Codec.encode (.ofMeta
        (.authentication sessionData.authData sessionData.authSignature) :
          InternalMessage PeerId S D)) ∈ task.calls.drop opened.calls.length := by
  have hprotocol : before.network.protocol = protocol := protocol_of_run hrun
  have hprotocol' : opened.network.protocol = protocol := (step_protocol hopened).trans hprotocol
  have hopening := announced_opened (commands_alive_of_run hrun) hprotocol hopened
  rw [← hprotocol'] at hconnected
  have hannounced := announced_of_run hopening hrun' hconnected
  cases hannounced.pledged hrunning session sessionData hsession with
  | sent sent =>
    rw [sendMessage, protocol_of_run hrun', hprotocol'] at sent
    exact sent
  | queuedForPeer queued | queuedForAll queued =>
    rw [hempty] at queued
    cases queued
  | starting starting =>
    rw [hstarting] at starting
    cases starting

end Runs
end Announcements

section Example
attribute [local instance] nodeIndexCodec

/-- The component after a peer has connected between the two moves of the start of the
session. -/
private def connectedBetween (commands : List (SessionCommand PlainPeer PlainSignature ℕ))
    (loop : Loop PlainPeer) (starting : List (MetaMessage PlainPeer PlainSignature))
    (calls : List (NetworkCall PlainPeer)) : Task PlainPeer PlainKey PlainSignature ℕ :=
  ⟨{ singleSession.network with
      peers := singleSession.network.peers.insert ⟨1⟩, commands := ⟨commands, true⟩ },
    loop, starting, calls⟩

theorem connected_peers_announced_to_between : ∃ sessionData,
    singleSession.network.sessions.lookup ⟨0⟩ = some sessionData ∧
      .sendMessage ⟨1⟩ "p" (Codec.encode (.ofMeta
        (.authentication sessionData.authData sessionData.authSignature) :
          InternalMessage PlainPeer PlainSignature ℕ)) ∈
        ([singleSession.network.sendMessage (.ofMeta (plainMeta ⟨9⟩ ⟨0⟩)) ⟨1⟩,
          singleSession.network.sendMessage (.ofMeta (plainMeta ⟨9⟩ ⟨0⟩)) ⟨1⟩] :
            List (NetworkCall PlainPeer)) := by
  let message := plainMeta ⟨9⟩ ⟨0⟩
  let call := singleSession.network.sendMessage (.ofMeta message) ⟨1⟩
  have henumerates : Enumerates [⟨0⟩] singleSession.network.sessions.keys := by decide
  have hconnects : singleSession.network.onPeerConnected [⟨0⟩] ⟨1⟩ =
      .ok (connectedBetween [.ofMeta message (.target ⟨1⟩)] .retaining [message] []).network := rfl
  have hopened : Step singleSession (.streamOpened ⟨1⟩ "p" [⟨0⟩])
      (connectedBetween [.ofMeta message (.target ⟨1⟩)] .retaining [message] []) :=
    .streamOpened _ henumerates hconnects
  have hqueued : Step (connectedBetween [.ofMeta message (.target ⟨1⟩)] .retaining [message] [])
      (.authenticationQueued message)
      (connectedBetween [.ofMeta message (.target ⟨1⟩), .ofMeta message .all] .retaining [] []) :=
    .authenticationQueued (List.nil_append _).symm
  have hretained : ∀ commands calls, Step (connectedBetween commands .retaining [] calls)
      .sessionsRetained (connectedBetween commands .select [] calls) := by
    intro commands calls
    exact .sessionsRetained
  have htarget : Step
      (connectedBetween [.ofMeta message (.target ⟨1⟩), .ofMeta message .all] .select [] [])
      (.command (.ofMeta message (.target ⟨1⟩)) [⟨1⟩] [])
      (connectedBetween [.ofMeta message .all] .retaining [] [call]) :=
    .command rfl (by decide) (by simp)
  have hall : Step (connectedBetween [.ofMeta message .all] .select [] [call])
      (.command (.ofMeta message .all) [⟨1⟩] [])
      (connectedBetween [] .retaining [] [call, call]) :=
    .command rfl (by decide) (by simp)
  have hrun := ((((Run.refl.tail hqueued).tail (hretained _ _)).tail htarget).tail
    (hretained _ _)).tail hall
  refine ⟨_, rfl, ?_⟩
  exact connected_peers_announced_to singleSession_run hopened hrun (by simp) (by simp [connectedBetween])
    rfl rfl ⟨0⟩ _ rfl

end Example
end AlephNode.ConsensusNetwork
