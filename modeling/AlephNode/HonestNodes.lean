import AlephNode.BlockSignatureAggregator
import Mathlib.Data.Finset.Filter
import Mathlib.Data.Finset.Range

/-!
# Honest nodes

The honest nodes together. Each of them runs a justification handler, and one aggregator
for every session in which it takes part. Everything else is outside: the batches, the
notifications, the other authorities, and the answers of the clients.
-/
namespace AlephNode

/-- What the honest nodes `ι` have in common: the block tree, the sessions and their
authorities. `owner` tells which honest node holds a key. -/
structure Consensus (ι Hash A : Type) where
  tree : HeaderStore Hash
  genesis : Hash
  sessionPeriod : SessionPeriod
  authorities : SessionId → List A
  owner : A → Option ι
  genesis_number : tree.number genesis = some 0

namespace Consensus
variable {ι Hash A S : Type}

/-- The indices of the authorities of a session that are not honest nodes. -/
def byzantine (consensus : Consensus ι Hash A) (session : SessionId) : Finset ℕ :=
  (Finset.range (consensus.authorities session).length).filter
    (fun i => ((consensus.authorities session)[i]?.bind consensus.owner).isNone)

structure Node (Hash A S : Type) where
  finality : JustificationHandler.Task Hash A
  aggregators : FiniteMap SessionId (RunAggregator Hash S)

inductive Event (Hash A S : Type) where
  | finality (event : JustificationHandler.Event Hash A S)
  | aggregatorStarted (session : SessionId)
  | aggregator (session : SessionId) (event : RunAggregator.Event Hash S)

section Steps
variable [SignatureScheme A S] [MultiKeychain S] [Codec Hash] [Codec (SignatureSet S)]
  [DecidableEq Hash]

inductive NodeStep (consensus : Consensus ι Hash A) :
    Node Hash A S → Event Hash A S → Node Hash A S → Prop
  | finality {node : Node Hash A S} {event finality}
      (step : JustificationHandler.Step node.finality event finality) :
      NodeStep consensus node (.finality event) { node with finality := finality }
  | aggregatorStarted {node : Node Hash A S} (session) :
      NodeStep consensus node (.aggregatorStarted session) { node with
        aggregators := node.aggregators.insert session
          (.start node.finality.handler.client
            (lastBlockOfSession session consensus.sessionPeriod)) }
  | aggregator {node : Node Hash A S} {session task event task'}
      (running : node.aggregators.lookup session = some task)
      (step : RunAggregator.Step node.finality.handler.client.toHeaderStore task event task') :
      NodeStep consensus node (.aggregator session event)
        { node with aggregators := node.aggregators.insert session task' }

def Step [DecidableEq ι] (consensus : Consensus ι Hash A) (before : ι → Node Hash A S)
    (event : ι × Event Hash A S) (after : ι → Node Hash A S) : Prop :=
  ∃ node, NodeStep consensus (before event.1) event.2 node ∧
    after = Function.update before event.1 node

end Steps

def Started (nodes : ι → Node Hash A S) (i : ι) (hash : Hash) : Prop :=
  ∃ session task, (nodes i).aggregators.lookup session = some task ∧
    hash ∈ task.aggregator.startedRmc

def Finalized (nodes : ι → Node Hash A S) (hash : Hash) : Prop :=
  ∃ i, ∃ call ∈ (nodes i).finality.handler.finalizeCalls, call.succeeded = true ∧ call.hash = hash

/-- A node as it starts, with the genesis block finalized. -/
structure AtGenesis (consensus : Consensus ι Hash A) (node : Node Hash A S) : Prop where
  loop : node.finality.loop = .top
  finalizeCalls : node.finality.handler.finalizeCalls = []
  sessionPeriod : node.finality.handler.chainCadence.sessionPeriod = consensus.sessionPeriod
  sessionAuthorities : ∀ session authorities,
    node.finality.handler.sessionAuthorities.lookup session = some authorities →
      authorities = consensus.authorities session
  headers : node.finality.handler.client.toHeaderStore.Subset consensus.tree
  finalizedHash : node.finality.handler.client.finalizedHash = consensus.genesis
  finalizedNumber : node.finality.handler.client.finalizedNumber = 0
  aggregators : node.aggregators = ∅

/-- What is assumed of the surroundings of a node, given which hashes are started.
Signatures of a hash under the key of an honest node come from this node, which signs what
it starts; session maps hold the authorities; clients import headers of the tree; a node
starts one aggregator a session. -/
def NodeAssumed [SignatureScheme A S] [Codec Hash] (consensus : Consensus ι Hash A)
    (started : ι → Hash → Prop) (node : Node Hash A S) : Event Hash A S → Prop
  | .finality (.notified notification _ _ _ _) =>
    (∀ header, node.finality.handler.client.header notification.hash = some header →
      header.number = notification.number) ∧
    ∀ authority j, ∀ e ∈ notification.justification.signature.present,
      SignatureScheme.verify authority (Codec.encode notification.hash) e.2.sgn = true →
      consensus.owner authority = some j → started j notification.hash
  | .finality (.sessionAuthoritiesChanged sessionAuthorities) =>
    ∀ session authorities, sessionAuthorities.lookup session = some authorities →
      authorities = consensus.authorities session
  | .finality (.headersImported headers _) => headers.Subset consensus.tree
  | .aggregatorStarted session => node.aggregators.lookup session = none
  | _ => True

/-- A node starts the aggregator of a session when it has finalized what the code takes for the
last block of the session before. -/
def InTurn (consensus : Consensus ι Hash A) (node : Node Hash A S) : Event Hash A S → Prop
  | .aggregatorStarted session => session ≠ ⟨0⟩ →
    lastBlockOfSession ⟨session.val - 1⟩ consensus.sessionPeriod ≤
      node.finality.handler.client.finalizedNumber
  | _ => True

/-- The last block of the session before is computed without overflow. -/
def Fits (consensus : Consensus ι Hash A) : Event Hash A S → Prop
  | .aggregatorStarted session =>
    session.val.toNat * consensus.sessionPeriod.val.toNat < 2 ^ 32
  | _ => True

def Assumed [SignatureScheme A S] [Codec Hash] (consensus : Consensus ι Hash A)
    (nodes : ι → Node Hash A S) (event : ι × Event Hash A S) : Prop :=
  NodeAssumed consensus (Started nodes) (nodes event.1) event.2 ∧
    InTurn consensus (nodes event.1) event.2

end Consensus
end AlephNode
