import AlephNode.ConsensusNetwork

/-!
# Messages from outside

What a received message can do to the network component. A message proves that its sender
is a node of a session if it carries the sender's authentication, signed by that node; only
such a message changes the tables of peers. The index of the node is not checked before
the signature is verified, so an authentication of a node that the session does not have
stops the component.
-/
namespace AlephNode.ConsensusNetwork

section Handling
variable {PeerId A S D : Type} [DecidableEq PeerId] [PeerIdBytes PeerId] [SignatureScheme A S]
  [Codec NodeIndex] [Codec S] [Codec D]

/-- The message authenticates the peer as the node: the session is known, and its authority
with the index of the node has signed. -/
def Proves (net : ConsensusNetwork PeerId A S D) (raw : List UInt8) (peer : PeerId)
    (session : SessionId) (node : NodeIndex) : Prop :=
  ∃ signature rest sessionData authority,
    Codec.decode raw = some ((.ofMeta (.authentication ⟨session, peer, node⟩ signature) :
      InternalMessage PeerId S D), rest) ∧
    net.sessions.lookup session = some sessionData ∧
    sessionData.keychain.authorities[node.val]? = some authority ∧
    SignatureScheme.verify authority
      (Codec.encode (⟨session, peer, node⟩ : AuthData PeerId)) signature.sgn = true

/-- The message authenticates its sender for a known session as a node that the session
does not have. -/
def BeyondAuthorities (net : ConsensusNetwork PeerId A S D) (peer : PeerId) (raw : List UInt8) :
    Prop :=
  ∃ session node signature rest sessionData,
    Codec.decode raw = some ((.ofMeta (.authentication ⟨session, peer, node⟩ signature) :
      InternalMessage PeerId S D), rest) ∧
    net.sessions.lookup session = some sessionData ∧
    sessionData.keychain.authorities.length ≤ node.val

/-- The message is an authentication for a known session as a node that the session does
not have, whoever sends it. -/
def NamesNoAuthority (net : ConsensusNetwork PeerId A S D) (raw : List UInt8) : Prop :=
  ∃ peer, BeyondAuthorities net peer raw

inductive Received (net : ConsensusNetwork PeerId A S D) (peer : PeerId) (raw : List UInt8) :
    ConsensusNetwork PeerId A S D → Prop
  | authenticated {session node} (proves : Proves net raw peer session node) :
      Received net peer raw { net with peers := net.peers.authenticate peer session node }
  | handed {session data rest}
      (decoded : Codec.decode raw = some ((.ofData session data : InternalMessage PeerId S D), rest))
      (authenticated : net.peers.isAuthenticated peer session = true) :
      Received net peer raw (net.onIncomingData session data)
  | queued {command} (unproved : ∀ session node, ¬Proves net raw peer session node) :
      Received net peer raw { net with commands := net.commands.sendAll [command] }
  | ignored (unproved : ∀ session node, ¬Proves net raw peer session node) :
      Received net peer raw net

section Messages
variable {net net' : ConsensusNetwork PeerId A S D} {peer : PeerId} {raw : List UInt8}
  {session session' : SessionId} {node node' : NodeIndex}

omit [DecidableEq PeerId] in
theorem Proves.unique (h : Proves net raw peer session node)
    (h' : Proves net raw peer session' node') : session = session' ∧ node = node' := by
  obtain ⟨_, _, _, _, hdecode, _⟩ := h
  obtain ⟨_, _, _, _, hdecode', _⟩ := h'
  rw [hdecode] at hdecode'
  cases hdecode'
  exact ⟨rfl, rfl⟩

omit [DecidableEq PeerId] [PeerIdBytes PeerId] [SignatureScheme A S] [Codec NodeIndex] [Codec S]
  [Codec D] in
theorem queueCommand_frame {command : SessionCommand PeerId S D}
    (h : net.queueCommand command = .ok net') :
    net' = { net with commands := net.commands.sendAll [command] } := by
  unfold queueCommand at h
  cases halive : net.commands.receiverAlive with
  | true =>
    simp only [Channel.unboundedSend_alive halive, Except.ok.injEq] at h
    simp [← h, Channel.sendAll, halive]
  | false => simp [Channel.unboundedSend_dropped halive] at h

omit [DecidableEq PeerId] [PeerIdBytes PeerId] [SignatureScheme A S] [Codec NodeIndex] [Codec S]
  [Codec D] in
theorem queueCommand_alive (halive : net.commands.receiverAlive = true)
    (command : SessionCommand PeerId S D) : Returns (net.queueCommand command) := by
  simp only [queueCommand, Channel.unboundedSend_alive halive]
  exact ⟨_, rfl⟩

omit [DecidableEq PeerId] in
private theorem unproved_of_decode {decoded : Option (InternalMessage PeerId S D × List UInt8)}
    (hdecode : Codec.decode raw = decoded)
    (hother : ∀ session node signature rest, decoded ≠
      some (.ofMeta (.authentication ⟨session, peer, node⟩ signature), rest)) :
    ∀ session node, ¬Proves net raw peer session node := by
  intro session node hproves
  obtain ⟨signature, rest, _, _, hproof, _⟩ := hproves
  exact hother session node signature rest (hdecode.symm.trans hproof)

private theorem authentication_cases {signature : Signature S} {rest : List UInt8}
    (hdecode : Codec.decode raw = some ((.ofMeta (.authentication ⟨session, peer, node⟩ signature) :
      InternalMessage PeerId S D), rest))
    (h : net.onIncomingAuthentication ⟨session, peer, node⟩ signature = .ok net') :
    Received net peer raw net' := by
  unfold onIncomingAuthentication at h
  dsimp only at h
  split at h
  · next hunknown =>
    cases h
    refine .ignored ?_
    intro session' node' hproves
    obtain ⟨_, _, _, _, hdecode', hlookup, _⟩ := hproves
    rw [hdecode] at hdecode'
    cases hdecode'
    rw [hunknown] at hlookup
    cases hlookup
  · next sessionData hlookup =>
    obtain ⟨valid, hverify, h⟩ := bind_eq_ok.mp h
    unfold KeyBox.verify at hverify
    split at hverify
    · cases hverify
    · next authority hauthority =>
      cases hverify
      split at h
      · next hvalid =>
        cases h
        exact .authenticated ⟨signature, rest, sessionData, authority, hdecode, hlookup, hauthority,
          hvalid⟩
      · next hinvalid =>
        cases h
        refine .ignored ?_
        intro session' node' hproves
        obtain ⟨_, _, _, _, hdecode', hlookup', hauthority', hvalid⟩ := hproves
        rw [hdecode] at hdecode'
        cases hdecode'
        rw [hlookup] at hlookup'
        cases hlookup'
        rw [hauthority] at hauthority'
        cases hauthority'
        exact hinvalid hvalid

theorem received_cases (h : net.onIncomingMessage peer raw = .ok net') :
    Received net peer raw net' := by
  unfold onIncomingMessage at h
  split at h
  · next session data rest hdecode =>
    split at h
    · next hauthenticated =>
      cases h
      exact .handed hdecode hauthenticated
    · rw [queueCommand_frame h]
      exact .queued (unproved_of_decode hdecode (by simp))
  · next message rest hdecode =>
    cases message with
    | authentication authData signature =>
      obtain ⟨session, peer', node⟩ := authData
      simp only [onIncomingMeta] at h
      split at h
      · next hpeer =>
        subst hpeer
        exact authentication_cases hdecode h
      · next hpeer =>
        cases h
        refine .ignored (unproved_of_decode hdecode ?_)
        intro session' node' signature' rest' hsame
        cases hsame
        exact hpeer rfl
    | authenticationRequest session =>
      have hunproved : ∀ session node, ¬Proves net raw peer session node :=
        unproved_of_decode hdecode (by simp)
      simp only [onIncomingMeta] at h
      split at h
      · rw [queueCommand_frame h]
        exact .queued hunproved
      · cases h
        exact .ignored hunproved
  · next hdecode =>
    cases h
    exact .ignored (unproved_of_decode hdecode (by simp))

theorem onIncomingMessage_of_proves (h : Proves net raw peer session node) :
    net.onIncomingMessage peer raw =
      .ok { net with peers := net.peers.authenticate peer session node } := by
  obtain ⟨signature, rest, sessionData, authority, hdecode, hlookup, hauthority, hvalid⟩ := h
  simp [onIncomingMessage, hdecode, onIncomingMeta, onIncomingAuthentication, hlookup,
    KeyBox.verify, hauthority, hvalid]

/-- Handling a message panics exactly if it authenticates its sender as a node that its
session does not have. -/
theorem onIncomingMessage_returns (halive : net.commands.receiverAlive = true) :
    Returns (net.onIncomingMessage peer raw) ↔ ¬BeyondAuthorities net peer raw := by
  constructor
  · intro hreturns hbeyond
    obtain ⟨net', h⟩ := hreturns
    obtain ⟨session, node, signature, rest, sessionData, hdecode, hlookup, hbeyond⟩ := hbeyond
    simp [onIncomingMessage, hdecode, onIncomingMeta, onIncomingAuthentication, hlookup,
      KeyBox.verify, List.getElem?_eq_none hbeyond, bind, Except.bind] at h
  · intro hinside
    unfold onIncomingMessage
    split
    · split
      · exact ⟨_, rfl⟩
      · exact queueCommand_alive halive _
    · next message rest hdecode =>
      cases message with
      | authentication authData signature =>
        obtain ⟨session, peer', node⟩ := authData
        simp only [onIncomingMeta]
        split
        · next hpeer =>
          subst hpeer
          unfold onIncomingAuthentication
          dsimp only
          split
          · exact ⟨_, rfl⟩
          · next sessionData hlookup =>
            have hrange : node.val < sessionData.keychain.authorities.length := by
              by_contra hbeyond
              exact hinside ⟨session, node, signature, rest, sessionData, hdecode, hlookup,
                Nat.not_lt.mp hbeyond⟩
            simp only [KeyBox.verify, List.getElem?_eq_getElem hrange, ok_bind]
            split <;> exact ⟨_, rfl⟩
        · exact ⟨_, rfl⟩
      | authenticationRequest session =>
        simp only [onIncomingMeta]
        split
        · exact queueCommand_alive halive _
        · exact ⟨_, rfl⟩
    · exact ⟨_, rfl⟩

end Messages

section Frames
variable {net net' : ConsensusNetwork PeerId A S D}

omit [DecidableEq PeerId] [PeerIdBytes PeerId] [SignatureScheme A S] [Codec NodeIndex] [Codec S]
  [Codec D] in
private theorem authenticateTo_frame {peer : PeerId} {sessions : List (SessionData PeerId A S D)}
    (h : sessions.foldlM (authenticateTo peer) net = .ok net') :
    net' = { net with commands := net.commands.sendAll (sessions.map (fun sessionData =>
      .ofMeta (.authentication sessionData.authData sessionData.authSignature) (.target peer))) } := by
  induction sessions generalizing net with
  | nil =>
    cases h
    simp
  | cons sessionData sessions ih =>
    rw [List.foldlM_cons] at h
    obtain ⟨middle, hfirst, hrest⟩ := bind_eq_ok.mp h
    rw [ih hrest, queueCommand_frame hfirst, ← Channel.sendAll_append]
    rfl

omit [PeerIdBytes PeerId] [SignatureScheme A S] [Codec NodeIndex] [Codec S] [Codec D] in
theorem onPeerConnected_eq {order : List SessionId} {peer : PeerId}
    (h : net.onPeerConnected order peer = .ok net') : net' = { net with
      peers := net.peers.insert peer
      commands := net.commands.sendAll ((order.filterMap net.sessions.lookup).map
        (fun sessionData => .ofMeta (.authentication sessionData.authData sessionData.authSignature)
          (.target peer))) } :=
  authenticateTo_frame h

omit [PeerIdBytes PeerId] [SignatureScheme A S] [Codec NodeIndex] [Codec S] [Codec D] in
theorem onPeerConnected_frame {order : List SessionId} {peer : PeerId}
    (h : net.onPeerConnected order peer = .ok net') :
    ∃ commands, net' = { net with
      peers := net.peers.insert peer, commands := net.commands.sendAll commands } :=
  ⟨_, onPeerConnected_eq h⟩

end Frames

section Runs
variable {localPeerId : PeerId} {protocol : String} {events : List (Event PeerId A S D)}
  {task task' : Task PeerId A S D} {event : Event PeerId A S D}

/-- The component keeps the receiver of its commands until it ends. -/
theorem commands_alive_step (h : task.loop ≠ .ended →
      task.network.commands.receiverAlive = true) (hstep : Step task event task')
    (hrunning : task'.loop ≠ .ended) : task'.network.commands.receiverAlive = true := by
  cases hstep with
  | streamOpened _ _ run =>
    obtain ⟨_, rfl⟩ := onPeerConnected_frame run
    simpa using h
  | message run =>
    have halive := h (by simp)
    cases received_cases run with
    | authenticated => exact halive
    | handed =>
      simp only [onIncomingData]
      split
      · exact halive
      · split <;> exact halive
    | queued => simpa using halive
    | ignored => exact halive
  | networkStreamEnded => exact absurd rfl hrunning
  | command => exact h (by simp)
  | sessionStarted => exact h hrunning
  | authenticationQueued => simpa [tryQueueCommand] using h hrunning
  | dataQueued => simpa [tryQueueCommand] using h hrunning
  | dataNetworkDropped => exact h hrunning
  | _ => exact h (by simp)

theorem commands_alive_of_run (hrun : Run Step (Task.initial localPeerId protocol) events task)
    (hrunning : task.loop ≠ .ended) : task.network.commands.receiverAlive = true := by
  have hinv : task.loop ≠ .ended → task.network.commands.receiverAlive = true := by
    apply hrun.invariant (fun t => t.loop ≠ .ended → t.network.commands.receiverAlive = true)
    · exact fun _ => rfl
    · exact fun _ _ _ => commands_alive_step
  exact hinv hrunning

theorem Received.peers_eq {net net' : ConsensusNetwork PeerId A S D} {peer : PeerId}
    {raw : List UInt8} (h : Received net peer raw net') (hnone : NamesNoAuthority net raw) :
    net'.peers = net.peers := by
  cases h with
  | authenticated proves =>
    obtain ⟨_, _, sessionData, _, hdecode, hlookup, hauthority, _⟩ := proves
    obtain ⟨_, _, _, _, _, _, hdecode', hlookup', hbeyond⟩ := hnone
    rw [hdecode] at hdecode'
    cases hdecode'
    rw [hlookup] at hlookup'
    cases hlookup'
    rw [List.getElem?_eq_none hbeyond] at hauthority
    cases hauthority
  | handed =>
    simp only [onIncomingData]
    split
    · rfl
    · split <;> rfl
  | queued => rfl
  | ignored => rfl

/-- In every state of a running component, a message from any peer is handled without a
panic, and without changing the tables of peers if it names a node that its session does
not have, exactly if it does not authenticate its own sender as such a node. -/
theorem incoming_message_harmless_iff
    (hrun : Run Step (Task.initial localPeerId protocol) events task)
    (hrunning : task.loop ≠ .ended) (peer : PeerId) (raw : List UInt8) :
    (∃ net, task.network.onIncomingMessage peer raw = .ok net ∧
        (NamesNoAuthority task.network raw → net.peers = task.network.peers)) ↔
      ¬BeyondAuthorities task.network peer raw := by
  rw [← onIncomingMessage_returns (commands_alive_of_run hrun hrunning)]
  constructor
  · intro hharmless
    obtain ⟨net, h, _⟩ := hharmless
    exact ⟨net, h⟩
  · intro hreturns
    obtain ⟨net, h⟩ := hreturns
    have hreceived := received_cases h
    exact ⟨net, h, hreceived.peers_eq⟩

end Runs
end Handling

section Example
attribute [local instance] nodeIndexCodec

/-- The authentication of a peer as a node of session 0, signed with the key of the node. -/
def plainMeta (peer : PlainPeer) (node : NodeIndex) : MetaMessage PlainPeer PlainSignature :=
  .authentication ⟨⟨0⟩, peer, node⟩
    ⟨node, ⟨.ofNat (7 + node.val), Codec.encode (⟨⟨0⟩, peer, node⟩ : AuthData PlainPeer)⟩⟩

def plainAuthentication (peer : PlainPeer) (node : NodeIndex) : List UInt8 :=
  Codec.encode (.ofMeta (plainMeta peer node) : InternalMessage PlainPeer PlainSignature ℕ)

def singleSession : Task PlainPeer PlainKey PlainSignature ℕ :=
  let net := (new ⟨9⟩ "p").startSession ⟨0⟩ ⟨⟨0⟩, ⟨7⟩, [⟨7⟩]⟩
  ⟨net.1, .select, [net.2], []⟩

theorem singleSession_run : Run Step (Task.initial ⟨9⟩ "p")
    [.sessionStarted ⟨0⟩ ⟨⟨0⟩, ⟨7⟩, [⟨7⟩]⟩] singleSession :=
  .tail .refl (.sessionStarted ⟨0⟩ ⟨⟨0⟩, [⟨7⟩], rfl⟩)

theorem incoming_message_harmless_iff_single :
    ∃ net, singleSession.network.onIncomingMessage ⟨1⟩ (plainAuthentication ⟨1⟩ ⟨0⟩) = .ok net ∧
      (NamesNoAuthority singleSession.network (plainAuthentication ⟨1⟩ ⟨0⟩) →
        net.peers = singleSession.network.peers) := by
  have hrunning : singleSession.loop ≠ .ended := by simp [singleSession]
  apply (incoming_message_harmless_iff singleSession_run hrunning _ _).mpr
  intro hbeyond
  obtain ⟨_, _, _, _, _, hdecode, hlookup, hbeyond⟩ := hbeyond
  have hread : Codec.decode (plainAuthentication ⟨1⟩ ⟨0⟩) =
      some ((.ofMeta (plainMeta ⟨1⟩ ⟨0⟩) : InternalMessage PlainPeer PlainSignature ℕ), []) := by
    decide
  rw [hread] at hdecode
  cases hdecode
  rw [show singleSession.network.sessions.lookup ⟨0⟩ = some _ from rfl] at hlookup
  cases hlookup
  exact absurd hbeyond (by decide)

/-- One authentication as node 1 of a session with one authority stops the component. -/
theorem authentication_beyond_authorities_panics :
    ∃ task : Task PlainPeer PlainKey PlainSignature ℕ,
      Run Step (Task.initial ⟨9⟩ "p") [.sessionStarted ⟨0⟩ ⟨⟨0⟩, ⟨7⟩, [⟨7⟩]⟩] task ∧
        task.network.onIncomingMessage ⟨1⟩ (plainAuthentication ⟨1⟩ ⟨1⟩) =
          .error .indexOutOfBounds := by
  refine ⟨singleSession, singleSession_run, ?_⟩
  have hread : Codec.decode (plainAuthentication ⟨1⟩ ⟨1⟩) =
      some ((.ofMeta (plainMeta ⟨1⟩ ⟨1⟩) : InternalMessage PlainPeer PlainSignature ℕ), []) := by
    decide
  unfold onIncomingMessage
  rw [hread]
  rfl

end Example
end AlephNode.ConsensusNetwork
