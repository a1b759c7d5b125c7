import AlephNode.Announcements
import AlephNode.SplitNetwork

/-!
# Two nodes and the link between them

What the member and the aggregator of a session send goes through their own queue, through
the queue of the consensus network, over the link to the peer, and there to the user of the
session, whose data is passed on by its variant. The link keeps the order and may lose
messages. Everything else that a node receives comes from outside.
-/
namespace AlephNode

/-- A node with the sessions in which it takes part. It is recorded from which peers the data came
that waits in a session, and the data that was put on the channels of its split network, oldest
first. -/
structure TransportNode (PeerId A S Aleph Rmc : Type) where
  task : ConsensusNetwork.Task PeerId A S (NetworkData Aleph Rmc)
  splits : FiniteMap SessionId (SplitNetwork PeerId S Aleph Rmc)
  arrived : SessionId → List (PeerId × NetworkData Aleph Rmc)
  forwarded : SessionId → List (Option PeerId × NetworkData Aleph Rmc)

namespace TransportNode
variable {PeerId A S Aleph Rmc : Type}

def initial (localPeerId : PeerId) (protocol : String) : TransportNode PeerId A S Aleph Rmc where
  task := .initial localPeerId protocol
  splits := ∅
  arrived _ := []
  forwarded _ := []

inductive Endpoint where
  | alephCmd
  | rmcCmd
  | dataStore
  | rmcData

def dropReceiver (split : SplitNetwork PeerId S Aleph Rmc) :
    Endpoint → SplitNetwork PeerId S Aleph Rmc
  | .alephCmd => { split with alephCmd := split.alephCmd.dropReceiver }
  | .rmcCmd => { split with rmcCmd := split.rmcCmd.dropReceiver }
  | .dataStore => { split with dataStore := split.dataStore.dropReceiver }
  | .rmcData => { split with rmcData := split.rmcData.dropReceiver }

inductive Event (PeerId A S Aleph Rmc : Type) where
  | network (event : ConsensusNetwork.Event PeerId A S (NetworkData Aleph Rmc))
  | alephSent (sessionId : SessionId) (data : Aleph) (recipient : BftRecipient)
  | rmcSent (sessionId : SessionId) (data : Rmc) (recipient : Recipient NodeIndex)
  | alephCmdForwarded (sessionId : SessionId)
  | rmcCmdForwarded (sessionId : SessionId)
  | dataForwarded (sessionId : SessionId) (origin : Option PeerId)
      (data : NetworkData Aleph Rmc)
  | receiverDropped (sessionId : SessionId) (endpoint : Endpoint)

/-- The moves of the consensus network that do not belong to split networks. A session is
started once. -/
def Outside (node : TransportNode PeerId A S Aleph Rmc) :
    ConsensusNetwork.Event PeerId A S (NetworkData Aleph Rmc) → Prop
  | .dataQueued _ _ _ => False
  | .sessionStarted sessionId _ => node.splits.lookup sessionId = none
  | _ => True

def splitStarted (node : TransportNode PeerId A S Aleph Rmc) :
    ConsensusNetwork.Event PeerId A S (NetworkData Aleph Rmc) →
    FiniteMap SessionId (SplitNetwork PeerId S Aleph Rmc)
  | .sessionStarted sessionId _ => node.splits.insert sessionId (.splitNetwork sessionId)
  | _ => node.splits

/-- What a message adds to the data of a session has come from its sender. -/
def recordArrivals (node : TransportNode PeerId A S Aleph Rmc)
    (after : ConsensusNetwork PeerId A S (NetworkData Aleph Rmc)) :
    ConsensusNetwork.Event PeerId A S (NetworkData Aleph Rmc) →
    SessionId → List (PeerId × NetworkData Aleph Rmc)
  | .message remote _ _ => fun sessionId => node.arrived sessionId ++
      ((after.userData sessionId).drop (node.task.network.userData sessionId).length).map
        (remote, ·)
  | .sessionStarted sessionId _ => Function.update node.arrived sessionId []
  | _ => node.arrived

def sentTo [DecidableEq PeerId] (peer : PeerId) (calls : List (NetworkCall PeerId)) :
    List (List UInt8) :=
  calls.filterMap (fun
    | .sendMessage remote _ message => if remote = peer then some message else none
    | _ => none)

def cameFrom [DecidableEq PeerId] {D : Type} (part : NetworkData Aleph Rmc → Option D) (peer : PeerId)
    (forwarded : List (Option PeerId × NetworkData Aleph Rmc)) : List D :=
  forwarded.filterMap (fun (origin, data) => if origin = some peer then part data else none)

def outgoing [DecidableEq PeerId] (peer : PeerId)
    (before after : TransportNode PeerId A S Aleph Rmc) : List (List UInt8) :=
  sentTo peer (after.task.calls.drop before.task.calls.length)

variable [DecidableEq PeerId] [PeerIdBytes PeerId] [SignatureScheme A S]
  [Codec NodeIndex] [Codec S] [Codec Aleph] [Codec Rmc]

/-- One move of a node: of its consensus network, of a handle, or of a forwarder. -/
inductive Step : TransportNode PeerId A S Aleph Rmc → Event PeerId A S Aleph Rmc →
    TransportNode PeerId A S Aleph Rmc → Prop
  | network {node : TransportNode PeerId A S Aleph Rmc} {event task'}
      (outside : node.Outside event) (step : ConsensusNetwork.Step node.task event task') :
      Step node (.network event)
        ⟨task', node.splitStarted event, node.recordArrivals task'.network event, node.forwarded⟩
  | alephSent {node : TransportNode PeerId A S Aleph Rmc} {sessionId split} (data) (recipient)
      (runs : node.splits.lookup sessionId = some split) :
      Step node (.alephSent sessionId data recipient) { node with
        splits := node.splits.insert sessionId (split.alephSend data recipient) }
  | rmcSent {node : TransportNode PeerId A S Aleph Rmc} {sessionId split split' data recipient}
      (runs : node.splits.lookup sessionId = some split)
      (sends : split.rmcSend data recipient = .ok split') :
      Step node (.rmcSent sessionId data recipient)
        { node with splits := node.splits.insert sessionId split' }
  | alephCmdForwarded {node : TransportNode PeerId A S Aleph Rmc} {sessionId split command rest}
      (runs : node.splits.lookup sessionId = some split)
      (next : split.alephCmd.messages = command :: rest) :
      Step node (.alephCmdForwarded sessionId) { node with
        task.network := node.task.network.tryQueueCommand (command.map .aleph)
        splits := node.splits.insert sessionId { split with alephCmd := split.alephCmd.rest } }
  | rmcCmdForwarded {node : TransportNode PeerId A S Aleph Rmc} {sessionId split command rest}
      (runs : node.splits.lookup sessionId = some split)
      (next : split.rmcCmd.messages = command :: rest) :
      Step node (.rmcCmdForwarded sessionId) { node with
        task.network := node.task.network.tryQueueCommand (command.map .rmc)
        splits := node.splits.insert sessionId { split with rmcCmd := split.rmcCmd.rest } }
  | dataForwarded {node : TransportNode PeerId A S Aleph Rmc} {sessionId split sessionData data
      rest} (runs : node.splits.lookup sessionId = some split)
      (known : node.task.network.sessions.lookup sessionId = some sessionData)
      (alive : sessionData.dataForUser.receiverAlive = true)
      (next : sessionData.dataForUser.messages = data :: rest) :
      Step node
        (.dataForwarded sessionId ((node.arrived sessionId).head?.map Prod.fst) data) { node with
        task.network.sessions := node.task.network.sessions.insert sessionId
          { sessionData with dataForUser := { sessionData.dataForUser with messages := rest } }
        splits := node.splits.insert sessionId (split.forwardData data)
        arrived := Function.update node.arrived sessionId (node.arrived sessionId).tail
        forwarded := Function.update node.forwarded sessionId (node.forwarded sessionId ++
          (split.added (split.forwardData data)).map
            ((node.arrived sessionId).head?.map Prod.fst, ·)) }
  | receiverDropped {node : TransportNode PeerId A S Aleph Rmc} {sessionId split} (endpoint)
      (runs : node.splits.lookup sessionId = some split) :
      Step node (.receiverDropped sessionId endpoint)
        { node with splits := node.splits.insert sessionId (dropReceiver split endpoint) }

end TransportNode

/-- Two nodes, and what is on the way from each of them to the other, oldest first. -/
structure Transport (PeerId A S Aleph Rmc : Type) where
  a : TransportNode PeerId A S Aleph Rmc
  b : TransportNode PeerId A S Aleph Rmc
  toA : List (List UInt8)
  toB : List (List UInt8)

namespace Transport
variable {PeerId A S Aleph Rmc : Type}

def initial (peerA peerB : PeerId) (protocol : String) : Transport PeerId A S Aleph Rmc where
  a := .initial peerA protocol
  b := .initial peerB protocol
  toA := []
  toB := []

inductive Event (PeerId A S Aleph Rmc : Type) where
  | a (event : TransportNode.Event PeerId A S Aleph Rmc)
  | b (event : TransportNode.Event PeerId A S Aleph Rmc)
  | lost

/-- The notifications that a node receives from the peer are the next ones on the link. -/
def Takes [DecidableEq PeerId] (protocol : String) (peer : PeerId) (link rest : List (List UInt8)) :
    TransportNode.Event PeerId A S Aleph Rmc → Prop
  | .network (.notificationsReceived remote messages) =>
    if remote = peer then
      link = (messages.filter (fun message => message.1 = protocol)).map Prod.snd ++ rest
    else rest = link
  | _ => rest = link

section Steps
variable [DecidableEq PeerId] [PeerIdBytes PeerId] [SignatureScheme A S] [Codec NodeIndex]
  [Codec S] [Codec Aleph] [Codec Rmc]

inductive Step : Transport PeerId A S Aleph Rmc → Event PeerId A S Aleph Rmc →
    Transport PeerId A S Aleph Rmc → Prop
  | a {t : Transport PeerId A S Aleph Rmc} {event a' toA'}
      (step : TransportNode.Step t.a event a')
      (takes : Takes t.a.task.network.protocol t.b.task.network.localPeerId t.toA toA' event) :
      Step t (.a event) { t with
        a := a', toA := toA'
        toB := t.toB ++ TransportNode.outgoing t.b.task.network.localPeerId t.a a' }
  | b {t : Transport PeerId A S Aleph Rmc} {event b' toB'}
      (step : TransportNode.Step t.b event b')
      (takes : Takes t.b.task.network.protocol t.a.task.network.localPeerId t.toB toB' event) :
      Step t (.b event) { t with
        b := b', toB := toB'
        toA := t.toA ++ TransportNode.outgoing t.a.task.network.localPeerId t.b b' }
  | lost {t : Transport PeerId A S Aleph Rmc} {toA' toB'} (keptA : toA'.Sublist t.toA)
      (keptB : toB'.Sublist t.toB) : Step t .lost { t with toA := toA', toB := toB' }

end Steps

/-- In every session the second node takes part with its own index. -/
def HoldsIndex (index : SessionId → NodeIndex) (_ : Transport PeerId A S Aleph Rmc) :
    Event PeerId A S Aleph Rmc → Prop
  | .b (.network (.sessionStarted sessionId keychain)) => keychain.id = index sessionId
  | _ => True

/-- What the second node has put on the channels of a session of the data that the peer has sent. -/
def delivered [DecidableEq PeerId] {D : Type} (part : NetworkData Aleph Rmc → Option D)
    (peer : PeerId) (session : SessionId) (t : Transport PeerId A S Aleph Rmc) : List D :=
  TransportNode.cameFrom part peer (t.b.forwarded session)

def Reaches (node : NodeIndex) : Recipient NodeIndex → Prop
  | .all => True
  | .target node' => node' = node

instance (node : NodeIndex) : DecidablePred (Reaches node)
  | .all => isTrue trivial
  | .target node' => inferInstanceAs (Decidable (node' = node))

/-- Data that the first node sends through the handles of a session to everyone or to the
node. -/
def sent {D : Type} (part : NetworkData Aleph Rmc → Option D) (session : SessionId)
    (node : NodeIndex) : Event PeerId A S Aleph Rmc → Option D
  | .a (.alephSent sessionId data recipient) =>
    if sessionId = session ∧ Reaches node (.ofBft recipient) then part (.aleph data) else none
  | .a (.rmcSent sessionId data recipient) =>
    if sessionId = session ∧ Reaches node recipient then part (.rmc data) else none
  | _ => none

end Transport

end AlephNode
