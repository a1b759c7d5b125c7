import AlephNode.NetworkMessages
import AlephNode.PeerTableRuns

/-!
# The consensus network

`ConsensusNetwork::run` handles network events and commands one after another and drops
terminated sessions after each of them. Session managers start sessions in other tasks, in
two moves: a session is inserted, and later the command that broadcasts its authentication
is queued. Calls of the network are recorded. Hash maps are iterated in an order that
comes with the event.
-/
namespace AlephNode

inductive Recipient (T : Type) where
  | all
  | target (t : T)

inductive SessionStatus where
  | inProgress
  | terminated
  deriving DecidableEq, Repr

inductive SessionCommand (PeerId S D : Type) where
  | ofMeta (message : MetaMessage PeerId S) (recipient : Recipient PeerId)
  | ofData (sessionId : SessionId) (data : D) (recipient : Recipient NodeIndex)

structure SessionData (PeerId A S D : Type) where
  dataForUser : Channel D
  status : SessionStatus
  keychain : KeyBox A
  authData : AuthData PeerId
  authSignature : Signature S

/-- Calls of the methods of `Network`. -/
inductive NetworkCall (PeerId : Type) where
  | sendMessage (peer : PeerId) (protocol : String) (message : List UInt8)
  | addSetReserved (who : PeerId) (protocol : String)
  | removeSetReserved (who : PeerId) (protocol : String)
  deriving DecidableEq

/-- The network component together with what it shares with the session managers. -/
structure ConsensusNetwork (PeerId A S D : Type) where
  localPeerId : PeerId
  protocol : String
  sessions : FiniteMap SessionId (SessionData PeerId A S D)
  commands : Channel (SessionCommand PeerId S D)
  peers : Peers PeerId

namespace ConsensusNetwork
variable {PeerId A S D : Type} [DecidableEq PeerId] [PeerIdBytes PeerId] [SignatureScheme A S]
  [Codec NodeIndex] [Codec S] [Codec D]

def new (localPeerId : PeerId) (protocol : String) : ConsensusNetwork PeerId A S D where
  localPeerId := localPeerId
  protocol := protocol
  sessions := ∅
  commands := .unbounded
  peers := .new

/-- The sends to `commands_for_session` that are expected to work. -/
def queueCommand (net : ConsensusNetwork PeerId A S D) (command : SessionCommand PeerId S D) :
    Result (ConsensusNetwork PeerId A S D) :=
  match net.commands.unboundedSend command with
  | .error _ => .error (.expect "Sending commands to session should work.")
  | .ok commands => .ok { net with commands := commands }

def sendToUser (data : D) (sessionData : SessionData PeerId A S D) : SessionData PeerId A S D :=
  match sessionData.dataForUser.unboundedSend data with
  | .error _ => { sessionData with status := .terminated }
  | .ok dataForUser => { sessionData with dataForUser := dataForUser }

def authenticateTo (peerId : PeerId) (net : ConsensusNetwork PeerId A S D)
    (sessionData : SessionData PeerId A S D) : Result (ConsensusNetwork PeerId A S D) :=
  net.queueCommand (.ofMeta (.authentication sessionData.authData sessionData.authSignature)
    (.target peerId))

def onIncomingAuthentication (net : ConsensusNetwork PeerId A S D) (authData : AuthData PeerId)
    (signature : Signature S) : Result (ConsensusNetwork PeerId A S D) :=
  let encAuthData := Codec.encode authData
  match net.sessions.lookup authData.sessionId with
  | none => .ok net
  | some sessionData => do
    if ← sessionData.keychain.verify encAuthData signature authData.nodeId then
      .ok { net with
        peers := net.peers.authenticate authData.peerId authData.sessionId authData.nodeId }
    else .ok net

def onIncomingMeta (net : ConsensusNetwork PeerId A S D) (message : MetaMessage PeerId S)
    (peerId : PeerId) : Result (ConsensusNetwork PeerId A S D) :=
  match message with
  | .authentication authData signature =>
    if peerId = authData.peerId then net.onIncomingAuthentication authData signature
    else .ok net
  | .authenticationRequest sessionId =>
    match net.sessions.lookup sessionId with
    | some sessionData => authenticateTo peerId net sessionData
    | none => .ok net

def onIncomingData (net : ConsensusNetwork PeerId A S D) (sessionId : SessionId) (data : D) :
    ConsensusNetwork PeerId A S D :=
  match net.sessions.lookup sessionId with
  | none => net
  | some sessionData =>
    if sessionData.status = .inProgress then
      { net with sessions := net.sessions.insert sessionId (sendToUser data sessionData) }
    else net

def onIncomingMessage (net : ConsensusNetwork PeerId A S D) (peerId : PeerId)
    (rawMessage : List UInt8) : Result (ConsensusNetwork PeerId A S D) :=
  match (Codec.decode rawMessage : Option (InternalMessage PeerId S D × List UInt8)) with
  | some (.ofData sessionId data, _) =>
    if net.peers.isAuthenticated peerId sessionId then .ok (net.onIncomingData sessionId data)
    else net.queueCommand (.ofMeta (.authenticationRequest sessionId) (.target peerId))
  | some (.ofMeta message, _) => net.onIncomingMeta message peerId
  | none => .ok net

def sendMessage (net : ConsensusNetwork PeerId A S D) (message : InternalMessage PeerId S D)
    (peerId : PeerId) : NetworkCall PeerId :=
  .sendMessage peerId net.protocol (Codec.encode message)

/-- The messages that a command sends. `peerOrder` is the order of `all_peers`, `nodeOrder`
that of the nodes of the session. -/
def onCommand (net : ConsensusNetwork PeerId A S D) (peerOrder : List PeerId)
    (nodeOrder : List NodeIndex) : SessionCommand PeerId S D → List (NetworkCall PeerId)
  | .ofMeta message recipient =>
    match recipient with
    | .all => peerOrder.map (net.sendMessage (.ofMeta message))
    | .target peerId => [net.sendMessage (.ofMeta message) peerId]
  | .ofData sessionId data recipient =>
    match recipient with
    | .target nodeId =>
      match net.peers.get sessionId nodeId with
      | some peer => [net.sendMessage (.ofData sessionId data) peer]
      | none => []
    | .all =>
      (net.peers.peersAuthenticatedFor nodeOrder sessionId).map
        (net.sendMessage (.ofData sessionId data))

/-- `order` is the order of the sessions. -/
def onPeerConnected (net : ConsensusNetwork PeerId A S D) (order : List SessionId)
    (peerId : PeerId) : Result (ConsensusNetwork PeerId A S D) :=
  (order.filterMap net.sessions.lookup).foldlM (authenticateTo peerId)
    { net with peers := net.peers.insert peerId }

def onPeerDisconnected (net : ConsensusNetwork PeerId A S D) (peerId : PeerId) :
    ConsensusNetwork PeerId A S D :=
  { net with peers := net.peers.remove peerId }

/-- The end of an iteration of `run`. -/
def retainSessions (net : ConsensusNetwork PeerId A S D) : ConsensusNetwork PeerId A S D :=
  { net with sessions := net.sessions.retain (fun _ data => decide (data.status = .inProgress)) }

/-- The first move of `start_session`: the session is registered. -/
def startSession (net : ConsensusNetwork PeerId A S D) (sessionId : SessionId)
    (keychain : KeyBox A) : ConsensusNetwork PeerId A S D × MetaMessage PeerId S :=
  let authData : AuthData PeerId := ⟨sessionId, net.localPeerId, keychain.id⟩
  let signature := keychain.sign (Codec.encode authData)
  let sessionData : SessionData PeerId A S D :=
    ⟨.unbounded, .inProgress, keychain, authData, signature⟩
  ({ net with sessions := net.sessions.insert sessionId sessionData },
    .authentication authData signature)

/-- The sends to `commands_for_session` whose failure the caller survives. -/
def tryQueueCommand (net : ConsensusNetwork PeerId A S D) (command : SessionCommand PeerId S D) :
    ConsensusNetwork PeerId A S D :=
  { net with commands := net.commands.sendAll [command] }

/-- Where `run` is: in `select`, between the messages of one notification, before dropping
terminated sessions, or at its end. -/
inductive Loop (PeerId : Type) where
  | select
  | receiving (remote : PeerId) (messages : List (String × List UInt8))
  | retaining
  | ended

/-- The network with the started sessions whose authentication is not broadcast yet, and
the calls made so far, oldest first. -/
structure Task (PeerId A S D : Type) where
  network : ConsensusNetwork PeerId A S D
  loop : Loop PeerId
  starting : List (MetaMessage PeerId S)
  calls : List (NetworkCall PeerId)

def Task.initial (localPeerId : PeerId) (protocol : String) : Task PeerId A S D :=
  ⟨new localPeerId protocol, .select, [], []⟩

/-- What happens to the task: the branches of `run`, and the moves of session managers and
of users of sessions. -/
inductive Event (PeerId A S D : Type) where
  | syncConnected (remote : PeerId)
  | syncDisconnected (remote : PeerId)
  | streamOpened (remote : PeerId) (protocol : String) (order : List SessionId)
  | streamClosed (remote : PeerId) (protocol : String)
  | notificationsReceived (remote : PeerId) (messages : List (String × List UInt8))
  | message (remote : PeerId) (protocol : String) (raw : List UInt8)
  | messagesDone
  | dht
  | networkStreamEnded
  | command (command : SessionCommand PeerId S D) (peerOrder : List PeerId)
      (nodeOrder : List NodeIndex)
  | sessionsRetained
  | sessionStarted (sessionId : SessionId) (keychain : KeyBox A)
  | authenticationQueued (message : MetaMessage PeerId S)
  | dataQueued (sessionId : SessionId) (data : D) (recipient : Recipient NodeIndex)
  | dataNetworkDropped (sessionId : SessionId)

inductive Step : Task PeerId A S D → Event PeerId A S D → Task PeerId A S D → Prop
  | syncConnected {net starting calls} (remote) :
      Step ⟨net, .select, starting, calls⟩ (.syncConnected remote)
        ⟨net, .retaining, starting, calls ++ [.addSetReserved remote net.protocol]⟩
  | syncDisconnected {net starting calls} (remote) :
      Step ⟨net, .select, starting, calls⟩ (.syncDisconnected remote)
        ⟨net, .retaining, starting, calls ++ [.removeSetReserved remote net.protocol]⟩
  | streamOpened {net net' starting calls order} (remote)
      (enumerates : Enumerates order net.sessions.keys)
      (run : net.onPeerConnected order remote = .ok net') :
      Step ⟨net, .select, starting, calls⟩ (.streamOpened remote net.protocol order)
        ⟨net', .retaining, starting, calls⟩
  | otherStreamOpened {net starting calls} (remote) {protocol} (order)
      (other : protocol ≠ net.protocol) :
      Step ⟨net, .select, starting, calls⟩ (.streamOpened remote protocol order)
        ⟨net, .select, starting, calls⟩
  | streamClosed {net starting calls} (remote) :
      Step ⟨net, .select, starting, calls⟩ (.streamClosed remote net.protocol)
        ⟨net.onPeerDisconnected remote, .retaining, starting, calls⟩
  | otherStreamClosed {net starting calls} (remote) {protocol} (other : protocol ≠ net.protocol) :
      Step ⟨net, .select, starting, calls⟩ (.streamClosed remote protocol)
        ⟨net, .select, starting, calls⟩
  | notificationsReceived {net starting calls} (remote) (messages) :
      Step ⟨net, .select, starting, calls⟩ (.notificationsReceived remote messages)
        ⟨net, .receiving remote messages, starting, calls⟩
  | message {net net' starting calls remote raw messages}
      (run : net.onIncomingMessage remote raw = .ok net') :
      Step ⟨net, .receiving remote ((net.protocol, raw) :: messages), starting, calls⟩
        (.message remote net.protocol raw) ⟨net', .receiving remote messages, starting, calls⟩
  | otherMessage {net starting calls remote protocol raw messages}
      (other : protocol ≠ net.protocol) :
      Step ⟨net, .receiving remote ((protocol, raw) :: messages), starting, calls⟩
        (.message remote protocol raw) ⟨net, .receiving remote messages, starting, calls⟩
  | messagesDone {net starting calls remote} :
      Step ⟨net, .receiving remote [], starting, calls⟩ .messagesDone
        ⟨net, .retaining, starting, calls⟩
  | dht {net starting calls} :
      Step ⟨net, .select, starting, calls⟩ .dht ⟨net, .retaining, starting, calls⟩
  | networkStreamEnded {net starting calls} :
      Step ⟨net, .select, starting, calls⟩ .networkStreamEnded
        ⟨{ net with commands := net.commands.dropReceiver }, .ended, starting, calls⟩
  | command {net : ConsensusNetwork PeerId A S D} {starting calls command commands peerOrder
      nodeOrder}
      (next : net.commands.messages = command :: commands)
      (enumerates : Enumerates peerOrder net.peers.allPeers.keys)
      (enumerates_nodes : ∀ sessionId nodes, net.peers.toPeer.lookup sessionId = some nodes →
        (∃ data recipient, command = .ofData sessionId data recipient) →
        Enumerates nodeOrder nodes.keys) :
      Step ⟨net, .select, starting, calls⟩ (.command command peerOrder nodeOrder)
        ⟨{ net with commands := { net.commands with messages := commands } }, .retaining, starting,
          calls ++ net.onCommand peerOrder nodeOrder command⟩
  | sessionsRetained {net starting calls} :
      Step ⟨net, .retaining, starting, calls⟩ .sessionsRetained
        ⟨net.retainSessions, .select, starting, calls⟩
  | sessionStarted {net loop starting calls keychain} (sessionId)
      (created : ∃ id authorities, KeyBox.new id authorities = .ok keychain) :
      Step ⟨net, loop, starting, calls⟩ (.sessionStarted sessionId keychain)
        ⟨(net.startSession sessionId keychain).1, loop,
          (net.startSession sessionId keychain).2 :: starting, calls⟩
  | authenticationQueued {net loop starting calls message before after}
      (pending : starting = before ++ message :: after) :
      Step ⟨net, loop, starting, calls⟩ (.authenticationQueued message)
        ⟨net.tryQueueCommand (.ofMeta message .all), loop, before ++ after, calls⟩
  | dataQueued {net loop starting calls} (sessionId) (data) (recipient) :
      Step ⟨net, loop, starting, calls⟩ (.dataQueued sessionId data recipient)
        ⟨net.tryQueueCommand (.ofData sessionId data recipient), loop, starting, calls⟩
  | dataNetworkDropped {net loop starting calls} (sessionId) :
      Step ⟨net, loop, starting, calls⟩ (.dataNetworkDropped sessionId)
        ⟨{ net with sessions := net.sessions.modify sessionId (fun sessionData =>
          { sessionData with dataForUser := sessionData.dataForUser.dropReceiver }) }, loop,
          starting, calls⟩

end ConsensusNetwork
end AlephNode
