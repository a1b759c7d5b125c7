import AlephNode.DataStore
import AlephNode.HonestNodes
import AlephNode.SplitNetwork

/-!
# Authorities at work

In a session the member of aleph_bft is between the data store and the aggregator. It receives
the messages that the data store lets through, proposes the best chain, and orders data in
batches. The member belongs to aleph_bft: when it does any of this is left open. The data store,
the aggregator and the justification handler share the client of the node.
-/
namespace AlephNode

variable {Hash A S Message Cache : Type}

/-- `DataIO`, with both ends of the channel of ordered batches. -/
structure DataIo (Hash : Type) where
  bestChain : AlephData Hash
  orderedBatches : Mpsc (List (AlephData Hash))

namespace DataIo

/-- `get_data` -/
def getData (dataIo : DataIo Hash) : AlephData Hash := dataIo.bestChain

/-- `send_ordered_batch` -/
def sendOrderedBatch (dataIo : DataIo Hash) (batch : List (AlephData Hash)) :
    Except Error (DataIo Hash) :=
  match dataIo.orderedBatches.unboundedSend batch with
  | .ok orderedBatches => .ok { dataIo with orderedBatches := orderedBatches }
  | .error _ => .error .sendData

theorem sendOrderedBatch_ok {dataIo dataIo' : DataIo Hash} {batch : List (AlephData Hash)}
    (h : dataIo.sendOrderedBatch batch = .ok dataIo') :
    dataIo.orderedBatches.receiverAlive = true ∧ dataIo' = { dataIo with
      orderedBatches.messages := dataIo.orderedBatches.messages ++ [batch] } := by
  cases halive : dataIo.orderedBatches.receiverAlive with
  | false => simp [sendOrderedBatch, Mpsc.unboundedSend, halive, Except.map] at h
  | true =>
    simp only [sendOrderedBatch, Mpsc.unboundedSend, Channel.unboundedSend_alive halive, Except.map,
      Except.ok.injEq] at h
    exact ⟨rfl, h.symm⟩

/-- One round of `refresh_best_chain`, with the answer of the select chain. -/
def refreshBestChain (dataIo : DataIo Hash) (best : Option (Header Hash)) : Result (DataIo Hash) :=
  match best with
  | none => .error (.expect "No best chain")
  | some header => .ok { dataIo with bestChain := ⟨header.hash, header.number⟩ }

end DataIo

/-- What an authority runs in a session beside the aggregator. What is kept of the member is how
many messages it has received and what data it has got from them or proposed itself. -/
structure AuthoritySession (Hash Message Cache : Type) where
  dataStore : DataStore Hash Message Cache
  dataIo : DataIo Hash
  messagesReceived : ℕ
  memberData : List (AlephData Hash)

namespace AuthoritySession

inductive Event (Hash Message : Type) where
  | dataStore (event : DataStore.Event Hash Message)
  | bestChainRefreshed (best : Option (Header Hash))
  | messageReceived
  | dataProposed
  | batchOrdered (batch : List (AlephData Hash))
  | batchRefused (batch : List (AlephData Hash))
  | dataIoDropped

/-- What `run_session_as_authority` sets up. -/
def start [DecidableEq Hash] [BlockCache Cache (AlephData Hash)] (client : Client Hash)
    (best : Option (Header Hash)) : Result (AuthoritySession Hash Message Cache) :=
  match best with
  | none => .error (.expect "No best chain.")
  | some header => .ok {
      dataStore := .new client .unbounded
      dataIo := ⟨⟨header.hash, header.number⟩, .unbounded⟩
      messagesReceived := 0
      memberData := [] }

section Steps
variable [DecidableEq Hash] [AlephNetworkMessage Message Hash] [BlockCache Cache (AlephData Hash)]

/-- One move, under what the client knows at that moment. -/
inductive Step (client : Client Hash) : AuthoritySession Hash Message Cache →
    Event Hash Message → AuthoritySession Hash Message Cache → Prop
  | dataStore {s : AuthoritySession Hash Message Cache} {event dataStore}
      (step : DataStore.Step s.dataStore event dataStore) (seen : dataStore.client.Grows client) :
      Step client s (.dataStore event) { s with dataStore := dataStore }
  | bestChainRefreshed {s : AuthoritySession Hash Message Cache} {best dataIo}
      (run : s.dataIo.refreshBestChain best = .ok dataIo) :
      Step client s (.bestChainRefreshed best) { s with dataIo := dataIo }
  | messageReceived {s : AuthoritySession Hash Message Cache} {ready}
      (next : s.dataStore.readyMessages.messages[s.messagesReceived]? = some ready) :
      Step client s .messageReceived { s with
        messagesReceived := s.messagesReceived + 1
        memberData := s.memberData ++ AlephNetworkMessage.includedBlocks ready.message }
  | dataProposed {s : AuthoritySession Hash Message Cache} :
      Step client s .dataProposed { s with memberData := s.memberData ++ [s.dataIo.getData] }
  | batchOrdered {s : AuthoritySession Hash Message Cache} {batch dataIo}
      (owns : s.dataIo.orderedBatches.senderAlive = true)
      (run : s.dataIo.sendOrderedBatch batch = .ok dataIo) :
      Step client s (.batchOrdered batch) { s with dataIo := dataIo }
  | batchRefused {s : AuthoritySession Hash Message Cache} {batch error}
      (owns : s.dataIo.orderedBatches.senderAlive = true)
      (run : s.dataIo.sendOrderedBatch batch = .error error) : Step client s (.batchRefused batch) s
  | dataIoDropped {s : AuthoritySession Hash Message Cache} :
      Step client s .dataIoDropped
        { s with dataIo.orderedBatches := s.dataIo.orderedBatches.dropSender }

/-- The select chain answers with a block of the client, import notifications are for blocks of
the client, and the member orders data that it has got. -/
def Fed (client : Client Hash) (s : AuthoritySession Hash Message Cache) : Event Hash Message → Prop
  | .dataStore (.imported block _) => (s.dataStore.client.header block.hash).isSome
  | .bestChainRefreshed best => ∀ header, best = some header →
    client.header header.hash = some header
  | .batchOrdered batch => batch ⊆ s.memberData
  | _ => True

end Steps

/-- What the aggregator finds in the channel when it moves. -/
def Heard (s : AuthoritySession Hash Message Cache) : RunAggregator.Event Hash S → Prop
  | .batch batch => ∃ rest, s.dataIo.orderedBatches.messages = batch :: rest
  | .batchesEnded => s.dataIo.orderedBatches.Ended
  | _ => True

/-- The aggregator has taken a batch, or has dropped the receiver at its end. -/
def aggregatorMoved (s : AuthoritySession Hash Message Cache) :
    RunAggregator.Event Hash S → AuthoritySession Hash Message Cache
  | .batch _ => { s with dataIo.orderedBatches := s.dataIo.orderedBatches.rest }
  | .exit => { s with dataIo.orderedBatches := s.dataIo.orderedBatches.dropReceiver }
  | _ => s

end AuthoritySession

structure AuthorityNode (Hash A S Message Cache : Type) where
  node : Consensus.Node Hash A S
  sessions : FiniteMap SessionId (AuthoritySession Hash Message Cache)

namespace AuthorityNode
def client (node : AuthorityNode Hash A S Message Cache) : Client Hash :=
  node.node.finality.handler.client

inductive Event (Hash A S Message : Type) where
  | finality (event : JustificationHandler.Event Hash A S)
  | sessionStarted (session : SessionId) (best : Option (Header Hash))
  | aggregator (session : SessionId) (event : RunAggregator.Event Hash S)
  | authority (session : SessionId) (event : AuthoritySession.Event Hash Message)

section Steps
variable [SignatureScheme A S] [MultiKeychain S] [Codec Hash] [Codec (SignatureSet S)]
  [DecidableEq Hash] [AlephNetworkMessage Message Hash] [BlockCache Cache (AlephData Hash)]
  {ι : Type}

inductive NodeStep (consensus : Consensus ι Hash A) : AuthorityNode Hash A S Message Cache →
    Event Hash A S Message → AuthorityNode Hash A S Message Cache → Prop
  | finality {node : AuthorityNode Hash A S Message Cache} {event finality}
      (step : JustificationHandler.Step node.node.finality event finality) :
      NodeStep consensus node (.finality event) { node with node.finality := finality }
  | sessionStarted {node : AuthorityNode Hash A S Message Cache} {session best started}
      (run : AuthoritySession.start node.client best = .ok started) :
      NodeStep consensus node (.sessionStarted session best) { node with
        node.aggregators := node.node.aggregators.insert session
          (.start node.client (lastBlockOfSession session consensus.sessionPeriod))
        sessions := node.sessions.insert session started }
  | aggregator {node : AuthorityNode Hash A S Message Cache} {session task work event task'}
      (running : node.node.aggregators.lookup session = some task)
      (working : node.sessions.lookup session = some work) (heard : work.Heard event)
      (step : RunAggregator.Step node.client.toHeaderStore task event task') :
      NodeStep consensus node (.aggregator session event) { node with
        node.aggregators := node.node.aggregators.insert session task'
        sessions := node.sessions.insert session (work.aggregatorMoved event) }
  | authority {node : AuthorityNode Hash A S Message Cache} {session work event work'}
      (working : node.sessions.lookup session = some work)
      (step : AuthoritySession.Step node.client work event work') :
      NodeStep consensus node (.authority session event)
        { node with sessions := node.sessions.insert session work' }

def Step [DecidableEq ι] (consensus : Consensus ι Hash A)
    (before : ι → AuthorityNode Hash A S Message Cache) (event : ι × Event Hash A S Message)
    (after : ι → AuthorityNode Hash A S Message Cache) : Prop :=
  ∃ node, NodeStep consensus (before event.1) event.2 node ∧
    after = Function.update before event.1 node

end Steps
end AuthorityNode
end AlephNode
