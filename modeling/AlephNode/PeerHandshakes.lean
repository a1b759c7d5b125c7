import AlephNode.TransportNodes
import AlephNode.WireFormat

/-!
# Handshakes of peers

A peer that hears data of a session from a node that it has not authenticated asks for the
authentication, and the node answers with the announcement of the session. What is meant for
the peer is queued, or it is on the link, until the peer reads it.
-/
namespace AlephNode

theorem KeyBox.new_eq_ok {A : Type} {id : NodeIndex} {authorities : List A} {keybox : KeyBox A} :
    KeyBox.new id authorities = .ok keybox ↔
      keybox.id = id ∧ keybox.authorities = authorities ∧
        authorities[id.val]? = some keybox.authKeystore := by
  obtain ⟨id', authority', authorities'⟩ := keybox
  unfold KeyBox.new
  cases authorities[id.val]? with
  | none => simp
  | some authority =>
    simp only [Except.ok.injEq, KeyBox.mk.injEq, Option.some.injEq]
    constructor
    · rintro ⟨rfl, rfl, rfl⟩
      exact ⟨rfl, rfl, rfl⟩
    · rintro ⟨rfl, rfl, rfl⟩
      exact ⟨rfl, rfl, rfl⟩

theorem Peers.known_cases {PeerId : Type} [DecidableEq PeerId] {peers : Peers PeerId}
    {peer : PeerId} {event : PeerEvent PeerId} (h : peer ∈ (peers.handle event).allPeers.keys) :
    peer ∈ peers.allPeers.keys ∨ event = .connected peer ∨
      ∃ session node, event = .authenticated peer session node := by
  simp only [Finmap.mem_keys] at h ⊢
  cases event with
  | connected remote =>
    rcases Finmap.mem_insert.mp h with rfl | hbefore
    · exact .inr (.inl rfl)
    · exact .inl hbefore
  | disconnected remote =>
    left
    simp only [handle, remove] at h
    split at h
    · exact h
    · exact (Finmap.mem_erase.mp h).2
  | authenticated remote session node =>
    simp only [handle, authenticate] at h
    rcases Finmap.mem_insert.mp h with rfl | hbefore
    · exact .inr (.inr ⟨session, node, rfl⟩)
    · split at hbefore
      · rcases Finmap.mem_insert.mp hbefore with rfl | hbefore
        · exact .inr (.inr ⟨session, node, rfl⟩)
        · exact .inl hbefore
      · exact .inl hbefore

namespace ConsensusNetwork
open TransportNode (sentTo)
variable {PeerId A S D : Type} [DecidableEq PeerId] [PeerIdBytes PeerId] [SignatureScheme A S]
  [Codec NodeIndex] [Codec S] [Codec D] {authoritiesOf : SessionId → List A}
  {index : SessionId → NodeIndex} {task task' : Task PeerId A S D} {event : Event PeerId A S D}
  {peer : PeerId} {message : MetaMessage PeerId S} {session : SessionId} {unread : List (List UInt8)}

/-- The message announces the session by the node's key among the authorities. -/
def Certifies (authoritiesOf : SessionId → List A) (index : SessionId → NodeIndex) (peer : PeerId)
    (session : SessionId) (message : MetaMessage PeerId S) : Prop :=
  ∃ keychain, KeyBox.new (index session) (authoritiesOf session) = .ok keychain ∧
    message = .authentication ⟨session, peer, index session⟩
      (keychain.sign (Codec.encode (⟨session, peer, index session⟩ : AuthData PeerId)))

/-- The sessions of the map are those that the node takes part in with its index. -/
def Registered (authoritiesOf : SessionId → List A) (index : SessionId → NodeIndex)
    (task : Task PeerId A S D) : Prop :=
  ∀ session sessionData, task.network.sessions.lookup session = some sessionData →
    sessionData.keychain.authorities = authoritiesOf session ∧
      Certifies authoritiesOf index task.network.localPeerId session (announcement sessionData)

def StartsWith (authoritiesOf : SessionId → List A) (index : SessionId → NodeIndex)
    (event : Event PeerId A S D) : Prop :=
  ∀ session keychain, event = .sessionStarted session keychain →
    KeyBox.new (index session) (authoritiesOf session) = .ok keychain

/-- The stream of the peer opens once and does not close, and what the peer sends comes over
the open stream. -/
def KeepsStream (peer : PeerId) (task : Task PeerId A S D) (event : Event PeerId A S D) : Prop :=
  (Reopens task.network.protocol peer event → peer ∉ task.network.peers.allPeers.keys) ∧
    ∀ messages, event = .notificationsReceived peer messages →
      peer ∈ task.network.peers.allPeers.keys

/-- What is in hand from the peer came over its open stream. -/
def Listening (peer : PeerId) (task : Task PeerId A S D) : Prop :=
  ∀ messages, task.loop = .receiving peer messages → peer ∈ task.network.peers.allPeers.keys

/-- The message is meant for the peer: it is still to be sent, or the peer has not read it. -/
def UnderWay (peer : PeerId) (task : Task PeerId A S D) (unread : List (List UInt8))
    (message : MetaMessage PeerId S) : Prop :=
  Pledged peer task.calls.length task message ∨
    Codec.encode (.ofMeta message : InternalMessage PeerId S D) ∈ unread

theorem registered_step (h : Registered authoritiesOf index task) (hstep : Step task event task')
    (hstarts : StartsWith authoritiesOf index event) : Registered authoritiesOf index task' := by
  intro session sessionData hlookup
  have hchanges := session_changes hstep session
  have hbefore := h session
  rw [hlookup] at hchanges
  rw [step_localPeerId hstep]
  generalize task.network.sessions.lookup session = before at hchanges hbefore
  cases hchanges with
  | unchanged => exact hbefore sessionData rfl
  | started keychain starts =>
    have hnew := hstarts session keychain starts
    obtain ⟨hid, hauthorities, _⟩ := KeyBox.new_eq_ok.mp hnew
    refine ⟨hauthorities, keychain, hnew, ?_⟩
    simp only [announcement, hid]
  | @handed before _ _ data _ brings decoded authenticated =>
    cases halive : before.dataForUser.receiverAlive with
    | true =>
      rw [sendToUser_alive halive]
      exact hbefore before rfl
    | false =>
      rw [sendToUser_dropped halive]
      exact hbefore before rfl
  | @dropped before drops => exact hbefore before rfl

theorem open_step (hkeeps : KeepsStream peer task event) (hstep : Step task event task')
    (h : peer ∈ task.network.peers.allPeers.keys) : peer ∈ task'.network.peers.allPeers.keys := by
  apply connected_step h hstep
  rintro rfl
  exact hkeeps.1 ⟨rfl, rfl⟩ h

theorem listening_step (hkeeps : KeepsStream peer task event) (hstep : Step task event task')
    (h : Listening peer task) : Listening peer task' := by
  intro messages hloop
  apply open_step hkeeps hstep
  cases hstep with
  | notificationsReceived =>
    cases hloop
    exact hkeeps.2 messages rfl
  | message | otherMessage =>
    cases hloop
    exact h _ rfl
  | sessionStarted | authenticationQueued | dataQueued | dataNetworkDropped => exact h messages hloop
  | _ => cases hloop

theorem authentication_kept (hkeeps : KeepsStream peer task event) (hstep : Step task event task')
    (hopen : peer ∈ task.network.peers.allPeers.keys)
    (h : task.network.peers.isAuthenticated peer session = true) :
    task'.network.peers.isAuthenticated peer session = true := by
  rw [Peers.isAuthenticated_eq] at h ⊢
  rcases step_peers hstep with ⟨peerEvent, hcauses, hpeers⟩ | ⟨_, hpeers⟩
  · rw [hpeers]
    cases hcauses with
    | @connected remote order =>
      have hne : peer ≠ remote := by
        rintro rfl
        exact hkeeps.1 ⟨rfl, rfl⟩ hopen
      simpa [Peers.handle, Peers.nodeOf_insert, hne] using h
    | @disconnected remote =>
      have hne : peer ≠ remote := by
        rintro rfl
        exact hkeeps.1 ⟨rfl, rfl⟩ hopen
      simpa [Peers.handle, Peers.nodeOf_remove, hne] using h
    | @authenticated remote raw session' node proves =>
      simp only [Peers.handle, Peers.nodeOf_authenticate]
      split
      · rfl
      · exact h
  · rwa [hpeers]

/-- What is meant for a peer stays meant for it until the peer reads it. -/
theorem UnderWay.sends (h : UnderWay peer task unread message) (hstep : Step task event task')
    (hopen : peer ∈ task.network.peers.allPeers.keys)
    (halive : task.network.commands.receiverAlive = true) :
    UnderWay peer task' (unread ++ sentTo peer (task'.calls.drop task.calls.length)) message := by
  rcases h with hpledged | hunread
  · cases hpledged.step hstep hopen halive (Nat.le_refl _) with
    | sent sent =>
      right
      apply List.mem_append_right
      exact mem_sentTo.mpr ⟨_, sent⟩
    | queuedForPeer queued => exact .inl (.queuedForPeer queued)
    | queuedForAll queued => exact .inl (.queuedForAll queued)
    | starting starting => exact .inl (.starting starting)
  · exact .inr (List.mem_append_left _ hunread)

omit [DecidableEq PeerId] [SignatureScheme A S] in
/-- The peer reads the message, or it is still meant for the peer. -/
theorem UnderWay.reads {raws unread' : List (List UInt8)} (h : UnderWay peer task unread message)
    (hreads : raws ++ unread' = unread) : UnderWay peer task unread' message ∨
      Codec.encode (.ofMeta message : InternalMessage PeerId S D) ∈ raws := by
  rcases h with hpledged | hunread
  · exact .inl (.inl hpledged)
  · rw [← hreads] at hunread
    rcases List.mem_append.mp hunread with hread | hunread
    · exact .inr hread
    · exact .inl (.inr hunread)

/-- A message from the peer is read only while its stream is open. -/
theorem receiving_of_message {protocol : String} {raw : List UInt8}
    (hstep : Step task (.message peer protocol raw) task') (h : Listening peer task) :
    peer ∈ task.network.peers.allPeers.keys := by
  cases hstep with
  | message | otherMessage => exact h _ rfl

/-- When the stream opens, or when the session is started over the open stream, the session is
announced to the peer. -/
theorem pledged_of_new (hlistening : Listening peer task)
    (halive : task.loop ≠ .ended → task.network.commands.receiverAlive = true)
    (hrunning : task'.loop ≠ .ended) (hstep : Step task event task')
    {sessionData : SessionData PeerId A S D}
    (hsession : task'.network.sessions.lookup session = some sessionData)
    (hopen : peer ∈ task'.network.peers.allPeers.keys)
    (hnew : peer ∈ task.network.peers.allPeers.keys →
      task.network.sessions.lookup session = none) :
    Pledged peer task'.calls.length task' (announcement sessionData) := by
  by_cases hbefore : peer ∈ task.network.peers.allPeers.keys
  · have hnone := hnew hbefore
    rcases announcement_cases hstep hsession with ⟨sessionData', hlookup, _⟩ | hstarting
    · rw [hnone] at hlookup
      cases hlookup
    · exact .starting hstarting
  · rcases step_peers hstep with ⟨peerEvent, hcauses, hpeers⟩ | ⟨_, hpeers⟩
    · rw [hpeers] at hopen
      rcases Peers.known_cases hopen with hknown | rfl | ⟨session', node, rfl⟩
      · exact absurd hknown hbefore
      · cases hcauses with
        | connected => exact (announced_opened halive rfl hstep).pledged hrunning session _ hsession
      · cases hcauses with
        | authenticated proves =>
          -- an authentication is in hand only while the stream is open
          exact absurd (receiving_of_message hstep hlistening) hbefore
    · rw [hpeers] at hopen
      exact absurd hopen hbefore

omit [PeerIdBytes PeerId] [SignatureScheme A S] [Codec NodeIndex] [Codec S] [Codec D] in
theorem mem_read {protocol : String} {raw : List UInt8} :
    raw ∈ read protocol peer event ↔ event = .message peer protocol raw := by
  constructor
  · intro h
    cases event with
    | message remote protocol' raw' =>
      simp only [read, heard] at h
      split at h
      · next hpeer =>
        by_cases hprotocol : protocol' = protocol
        · simp only [hprotocol, List.filter_cons, decide_true, if_true, List.filter_nil,
            List.map_cons, List.map_nil, List.mem_singleton] at h
          rw [hpeer, hprotocol, h]
        · simp [hprotocol] at h
      · cases h
    | _ => cases h
  · rintro rfl
    simp [read, heard]

/-- What reading a message does is what the network does with it. -/
theorem message_step {protocol : String} {raw : List UInt8}
    (hprotocol : protocol = task.network.protocol)
    (hstep : Step task (.message peer protocol raw) task') :
    task.network.onIncomingMessage peer raw = .ok task'.network := by
  cases hstep with
  | message run => exact run
  | otherMessage other => exact absurd hprotocol other

section Readings
variable [LawfulPeerIdBytes PeerId] [LawfulIndexCodec] [LawfulCodec S]

omit [DecidableEq PeerId] [SignatureScheme A S] in
theorem decode_ofMeta
    (h : (.ofMeta message : InternalMessage PeerId S D).Representable) :
    Codec.decode (Codec.encode (.ofMeta message : InternalMessage PeerId S D)) =
      some ((.ofMeta message : InternalMessage PeerId S D), []) := by
  have hreads := metaMessage_readsBack h []
  rw [List.append_nil] at hreads
  show ((Codec.decode (Codec.encode message) : Option (MetaMessage PeerId S × List UInt8)) >>=
    _) = _
  rw [hreads]
  rfl

/-- A peer whose announcement is read in a session of the map is authenticated. -/
theorem announcement_read {index' : SessionId → NodeIndex}
    (hkeys : ∀ (key : A) msg, SignatureScheme.verify key msg (SignatureScheme.sign key msg : S) = true)
    (hindex : (index session).IsUsize) (hregistered : Registered authoritiesOf index' task)
    (hknown : task.network.sessions.lookup session ≠ none)
    (hcertifies : Certifies authoritiesOf index peer session message)
    (hstep : Step task (.message peer task.network.protocol
      (Codec.encode (.ofMeta message : InternalMessage PeerId S D))) task') :
    task'.network.peers.isAuthenticated peer session = true := by
  obtain ⟨keychain, hnew, rfl⟩ := hcertifies
  obtain ⟨hid, _, hkey⟩ := KeyBox.new_eq_ok.mp hnew
  obtain ⟨sessionData, hlookup⟩ := Option.ne_none_iff_exists'.mp hknown
  have hproves : Proves task.network (Codec.encode (.ofMeta (.authentication
      ⟨session, peer, index session⟩ (keychain.sign (Codec.encode
        (⟨session, peer, index session⟩ : AuthData PeerId)))) : InternalMessage PeerId S D)) peer
      session (index session) := by
    refine ⟨_, [], sessionData, keychain.authKeystore, decode_ofMeta ⟨hindex, ?_⟩, hlookup, ?_, ?_⟩
    · show keychain.id.IsUsize
      rw [hid]
      exact hindex
    · rw [(hregistered session sessionData hlookup).1]
      exact hkey
    · exact hkeys _ _
  have hread := message_step rfl hstep
  rw [onIncomingMessage_of_proves hproves, Except.ok.injEq] at hread
  rw [← hread, Peers.isAuthenticated_eq, Peers.nodeOf_authenticate, if_pos ⟨rfl, rfl⟩]
  rfl

/-- A request is answered with the announcement of the session. -/
theorem request_read (hregistered : Registered authoritiesOf index task)
    (hknown : task.network.sessions.lookup session ≠ none)
    (halive : task.network.commands.receiverAlive = true)
    (hstep : Step task (.message peer task.network.protocol (Codec.encode
      (.ofMeta (.authenticationRequest session) : InternalMessage PeerId S D))) task') :
    ∃ message, Certifies authoritiesOf index task.network.localPeerId session message ∧
      .ofMeta message (.target peer) ∈ task'.network.commands.messages := by
  obtain ⟨sessionData, hlookup⟩ := Option.ne_none_iff_exists'.mp hknown
  refine ⟨_, (hregistered session sessionData hlookup).2, ?_⟩
  have hread := message_step rfl hstep
  have hdecode : Codec.decode (Codec.encode (.ofMeta (.authenticationRequest session) :
      InternalMessage PeerId S D)) = some ((.ofMeta (.authenticationRequest session) :
        InternalMessage PeerId S D), []) := decode_ofMeta trivial
  simp only [onIncomingMessage, hdecode, onIncomingMeta, hlookup, authenticateTo] at hread
  rw [queueCommand_frame hread]
  simp [Channel.sendAll, halive, announcement]

end Readings

/-- Data of a session from a peer that is not authenticated is answered with a request. -/
theorem data_read {raw rest : List UInt8} {data : D}
    (hdecode : Codec.decode raw = some ((.ofData session data : InternalMessage PeerId S D), rest))
    (halive : task.network.commands.receiverAlive = true)
    (hstep : Step task (.message peer task.network.protocol raw) task') :
    task'.network.peers.isAuthenticated peer session = true ∨
      .ofMeta (.authenticationRequest session) (.target peer) ∈
        task'.network.commands.messages := by
  have hread := message_step rfl hstep
  simp only [onIncomingMessage, hdecode] at hread
  split at hread
  · next hauthenticated =>
    left
    rw [Except.ok.injEq] at hread
    rw [← hread]
    simp only [onIncomingData]
    split
    · exact hauthenticated
    · split
      · exact hauthenticated
      · exact hauthenticated
  · right
    rw [queueCommand_frame hread]
    simp [Channel.sendAll, halive]

end ConsensusNetwork

namespace TransportNode
open ConsensusNetwork (Registered StartsWith KeepsStream Listening UnderWay Certifies)
variable {PeerId A S Aleph Rmc : Type} [DecidableEq PeerId] [PeerIdBytes PeerId]
  [SignatureScheme A S] [Codec NodeIndex] [Codec S] [Codec Aleph] [Codec Rmc]
  {authoritiesOf : SessionId → List A} {index : SessionId → NodeIndex} {peer : PeerId}
  {node node' : TransportNode PeerId A S Aleph Rmc} {event : Event PeerId A S Aleph Rmc}
  {session : SessionId}

/-- The node takes part in its sessions with its index, over an open stream to the peer. -/
def Keeps (authoritiesOf : SessionId → List A) (index : SessionId → NodeIndex) (peer : PeerId)
    (node : TransportNode PeerId A S Aleph Rmc) : Event PeerId A S Aleph Rmc → Prop
  | .network event => KeepsStream peer node.task event ∧ StartsWith authoritiesOf index event
  | _ => True

structure Hosts (authoritiesOf : SessionId → List A) (index : SessionId → NodeIndex) (peer : PeerId)
    (node : TransportNode PeerId A S Aleph Rmc) : Prop where
  splits : SplitsSound node.splits
  registered : Registered authoritiesOf index node.task
  alive : node.task.loop ≠ .ended → node.task.network.commands.receiverAlive = true
  listening : Listening peer node.task
  started : ∀ session, node.task.network.sessions.lookup session ≠ none →
    node.splits.lookup session ≠ none

/-- A move changes at most the data that waits in a session. -/
def Resembles (task task' : ConsensusNetwork.Task PeerId A S (NetworkData Aleph Rmc)) : Prop :=
  ∃ sessions, task' = { task with network.sessions := sessions } ∧
    ∀ session sessionData', sessions.lookup session = some sessionData' →
      ∃ sessionData, task.network.sessions.lookup session = some sessionData ∧
        sessionData'.keychain = sessionData.keychain ∧
        ConsensusNetwork.announcement sessionData' = ConsensusNetwork.announcement sessionData

/-- A move of a node is a step of its network that keeps the stream, or close to none. -/
theorem kept_cases (hkeeps : Keeps authoritiesOf index peer node event)
    {task' : ConsensusNetwork.Task PeerId A S (NetworkData Aleph Rmc)}
    (hmove : TaskMove node.task event task') :
    (∃ e, ConsensusNetwork.Step node.task e task' ∧ KeepsStream peer node.task e ∧
      StartsWith authoritiesOf index e) ∨ Resembles node.task task' := by
  cases hmove with
  | @network e _ step => exact .inl ⟨e, step, hkeeps⟩
  | queued internal step => exact .inl ⟨_, step, ⟨nofun, nofun⟩, nofun⟩
  | @dataTaken _ session sessionData rest internal known =>
    refine .inr ⟨_, rfl, ?_⟩
    intro session' sessionData' hlookup
    rw [FiniteMap.lookup_insert] at hlookup
    split at hlookup
    · next hsame =>
      cases hlookup
      exact ⟨sessionData, hsame ▸ known, rfl, rfl⟩
    · exact ⟨sessionData', hlookup, rfl, rfl⟩
  | idle => exact .inr ⟨_, rfl, fun _ sessionData' hlookup => ⟨sessionData', hlookup, rfl, rfl⟩⟩

theorem splits_kept (hstep : Step node event node') (h : node.splits.lookup session ≠ none) :
    node'.splits.lookup session ≠ none := by
  have hinsert : ∀ session' split,
      (node.splits.insert session' split).lookup session ≠ none := by
    intro session' split
    rw [FiniteMap.lookup_insert]
    split
    · exact Option.some_ne_none _
    · exact h
  cases hstep with
  | @network event _ outside step =>
    cases event with
    | sessionStarted => exact hinsert _ _
    | _ => exact h
  | _ => exact hinsert _ _

theorem session_new (hstep : Step node event node')
    (hafter : node'.task.network.sessions.lookup session ≠ none)
    (hbefore : node.task.network.sessions.lookup session = none) :
    node.splits.lookup session = none ∧ node'.splits.lookup session ≠ none := by
  cases hstep with
  | @network event task' outside step =>
    have hchanges := ConsensusNetwork.session_changes step session
    rw [hbefore] at hchanges
    dsimp only at hafter
    generalize task'.network.sessions.lookup session = after at hchanges hafter
    cases hchanges with
    | unchanged => exact absurd rfl hafter
    | started keychain starts =>
      subst starts
      refine ⟨outside, ?_⟩
      simp only [splitStarted, FiniteMap.lookup_insert, if_pos]
      exact Option.some_ne_none _
  | dataForwarded runs known =>
    rw [FiniteMap.lookup_insert] at hafter
    split at hafter
    · next hsame =>
      rw [hsame, known] at hbefore
      cases hbefore
    · exact absurd hbefore hafter
  | _ => exact absurd hbefore hafter

theorem hosts_step (h : Hosts authoritiesOf index peer node)
    (hkeeps : Keeps authoritiesOf index peer node event) (hstep : Step node event node') :
    Hosts authoritiesOf index peer node' := by
  have hstarted : ∀ session, node'.task.network.sessions.lookup session ≠ none →
      node'.splits.lookup session ≠ none := by
    intro session hafter
    by_cases hbefore : node.task.network.sessions.lookup session = none
    · exact (session_new hstep hafter hbefore).2
    · exact splits_kept hstep (h.started session hbefore)
  have hsplits := splitsSound_step h.splits hstep
  rcases kept_cases hkeeps (task_cases h.splits hstep) with
    ⟨e, hnetwork, hstream, hstarts⟩ | ⟨sessions, htask, hsame⟩
  · exact ⟨hsplits, ConsensusNetwork.registered_step h.registered hnetwork hstarts,
      ConsensusNetwork.commands_alive_step h.alive hnetwork,
      ConsensusNetwork.listening_step hstream hnetwork h.listening, hstarted⟩
  · refine ⟨hsplits, ?_, ?_, ?_, hstarted⟩
    · rw [htask]
      intro session sessionData hlookup
      obtain ⟨before, hbefore, hkeychain, hannounces⟩ := hsame session sessionData hlookup
      rw [hkeychain, hannounces]
      exact h.registered session before hbefore
    · rw [htask]
      exact h.alive
    · rw [htask]
      exact h.listening

section Kept
variable (h : Hosts authoritiesOf index peer node)
  (hkeeps : Keeps authoritiesOf index peer node event) (hstep : Step node event node')
  (hopen : peer ∈ node.task.network.peers.allPeers.keys)
include h hkeeps hstep hopen

theorem open_kept : peer ∈ node'.task.network.peers.allPeers.keys := by
  rcases kept_cases hkeeps (task_cases h.splits hstep) with
    ⟨e, hnetwork, hstream, _⟩ | ⟨sessions, htask, _⟩
  · exact ConsensusNetwork.open_step hstream hnetwork hopen
  · rw [htask]
    exact hopen

theorem authenticated_kept (hpeer : node.task.network.peers.isAuthenticated peer session = true) :
    node'.task.network.peers.isAuthenticated peer session = true := by
  rcases kept_cases hkeeps (task_cases h.splits hstep) with
    ⟨e, hnetwork, hstream, _⟩ | ⟨sessions, htask, _⟩
  · exact ConsensusNetwork.authentication_kept hstream hnetwork hopen hpeer
  · rw [htask]
    exact hpeer

theorem underWay_kept (hrunning : node'.task.loop ≠ .ended) {unread : List (List UInt8)}
    {message : MetaMessage PeerId S} (hmeant : UnderWay peer node.task unread message) :
    UnderWay peer node'.task (unread ++ outgoing peer node node') message := by
  rcases kept_cases hkeeps (task_cases h.splits hstep) with
    ⟨e, hnetwork, _, _⟩ | ⟨sessions, htask, _⟩
  · have halive := h.alive (ConsensusNetwork.ended_step hnetwork hrunning)
    exact hmeant.sends hnetwork hopen halive
  · have hnone : outgoing peer node node' = [] := by simp [outgoing, htask, sentTo]
    rw [hnone, List.append_nil, htask]
    rcases hmeant with hpledged | hunread
    · left
      cases hpledged with
      | sent sent =>
        rw [List.drop_length] at sent
        cases sent
      | queuedForPeer queued => exact .queuedForPeer queued
      | queuedForAll queued => exact .queuedForAll queued
      | starting starting => exact .starting starting
    · exact .inr hunread

end Kept

/-- When the stream opens, or when the session is started, an announcement of the session is
meant for the peer. -/
theorem underWay_new (h : Hosts authoritiesOf index peer node)
    (hkeeps : Keeps authoritiesOf index peer node event) (hstep : Step node event node')
    (hrunning : node'.task.loop ≠ .ended) (unread : List (List UInt8))
    (hopen : peer ∈ node'.task.network.peers.allPeers.keys)
    (hsession : node'.task.network.sessions.lookup session ≠ none)
    (hnew : peer ∈ node.task.network.peers.allPeers.keys →
      node.task.network.sessions.lookup session = none) :
    ∃ message, Certifies authoritiesOf index node'.task.network.localPeerId session message ∧
      UnderWay peer node'.task unread message := by
  obtain ⟨sessionData, hlookup⟩ := Option.ne_none_iff_exists'.mp hsession
  have hcertifies := ((hosts_step h hkeeps hstep).registered session sessionData hlookup).2
  refine ⟨_, hcertifies, .inl ?_⟩
  rcases kept_cases hkeeps (task_cases h.splits hstep) with
    ⟨e, hnetwork, _, _⟩ | ⟨sessions, htask, hsame⟩
  · exact ConsensusNetwork.pledged_of_new h.listening h.alive hrunning hnetwork hlookup hopen hnew
  · rw [htask] at hopen hlookup
    obtain ⟨before, hbefore, _⟩ := hsame session sessionData hlookup
    rw [hnew hopen] at hbefore
    cases hbefore

end TransportNode
end AlephNode
