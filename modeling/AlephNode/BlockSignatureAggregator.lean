import AlephNode.ChainExtension
import AlephNode.JustificationHandler

/-!
# The block signature aggregator

The task of an authority that has blocks signed. It turns ordered batches into the chain of
blocks above the last finalized one, up to the last block of the session, starts the
reliable multicast for each of them, and passes the multisignatures on in the same order.
The multicast itself, and the messages that are handed between it and the network, are
outside; its calls are recorded.
-/
namespace AlephNode

/-- `startedRmc` records the calls of `start_rmc`, oldest first. -/
structure BlockSignatureAggregator (Hash S : Type) where
  signatures : FiniteMap Hash (SignatureSet S)
  hashQueue : List Hash
  lastHashPlaced : Bool
  startedHashes : Finset Hash
  startedRmc : List Hash

namespace BlockSignatureAggregator
variable {Hash S : Type} [DecidableEq Hash]

def new : BlockSignatureAggregator Hash S := ⟨∅, [], false, ∅, []⟩

def startAggregation (aggregator : BlockSignatureAggregator Hash S) (hash : Hash) :
    BlockSignatureAggregator Hash S :=
  if hash ∈ aggregator.startedHashes then aggregator
  else { aggregator with
    startedHashes := insert hash aggregator.startedHashes
    hashQueue := aggregator.hashQueue ++ [hash]
    startedRmc := aggregator.startedRmc ++ [hash] }

def notifyLastHash (aggregator : BlockSignatureAggregator Hash S) :
    BlockSignatureAggregator Hash S :=
  { aggregator with lastHashPlaced := true }

/-- How far `next_multisigned_hash` gets before it has to wait. -/
inductive Poll (Hash S : Type) where
  | returned (hash : Hash) (multisignature : SignatureSet S)
  | ended
  | waiting

/-- The part of `next_multisigned_hash` before its inner loop. -/
def nextMultisignedHash (aggregator : BlockSignatureAggregator Hash S) :
    BlockSignatureAggregator Hash S × Poll Hash S :=
  match aggregator.hashQueue with
  | hash :: rest =>
    match aggregator.signatures.lookup hash with
    | some multisignature =>
      ({ aggregator with signatures := aggregator.signatures.erase hash, hashQueue := rest },
        .returned hash multisignature)
    | none => (aggregator, .waiting)
  | [] => (aggregator, if aggregator.lastHashPlaced then .ended else .waiting)

def multisigned (aggregator : BlockSignatureAggregator Hash S) (hash : Hash)
    (unchecked : SignatureSet S) : BlockSignatureAggregator Hash S :=
  { aggregator with signatures := aggregator.signatures.insert hash unchecked }

theorem nextMultisignedHash_started (aggregator : BlockSignatureAggregator Hash S) :
    aggregator.nextMultisignedHash.1.startedRmc = aggregator.startedRmc ∧
      aggregator.nextMultisignedHash.1.startedHashes = aggregator.startedHashes := by
  unfold nextMultisignedHash
  split
  · split <;> exact ⟨rfl, rfl⟩
  · exact ⟨rfl, rfl⟩

end BlockSignatureAggregator

/-- Where `run_aggregator` is: in `select`, in the middle of a batch, after its loop, or at
its end. -/
inductive AggregatorPosition (Hash : Type) where
  | select
  | processing (batch : List (AlephData Hash))
  | awaitingExit
  | ended

/-- The task that runs `run_aggregator`. -/
structure RunAggregator (Hash S : Type) where
  aggregator : BlockSignatureAggregator Hash S
  lastFinalized : Hash
  lastBlockSeen : Bool
  lastBlockInSession : ℕ
  justificationTx : Channel (JustificationNotification Hash S)
  position : AggregatorPosition Hash

namespace RunAggregator
variable {Hash S : Type} [DecidableEq Hash]

def start (client : Client Hash) (lastBlockInSession : ℕ) : RunAggregator Hash S where
  aggregator := .new
  lastFinalized := client.finalizedHash
  lastBlockSeen := false
  lastBlockInSession := lastBlockInSession
  justificationTx := .unbounded
  position := .select

/-- The loop over the headers of an extension. It is left at the last block. -/
def processHeaders (task : RunAggregator Hash S) : List (Header Hash) → RunAggregator Hash S
  | [] => task
  | header :: headers =>
    let task :=
      if header.number ≤ task.lastBlockInSession then
        { task with
          aggregator := task.aggregator.startAggregation header.hash
          lastFinalized := header.hash }
      else task
    if header.number ≥ task.lastBlockInSession then
      { task with aggregator := task.aggregator.notifyLastHash, lastBlockSeen := true }
    else task.processHeaders headers

def processData (task : RunAggregator Hash S) (client : HeaderStore Hash)
    (newBlockData : AlephData Hash) : RunAggregator Hash S :=
  task.processHeaders
    (ChainExtension.chainExtensionStep client task.lastFinalized newBlockData)

/-- The number of the block is unwrapped; whether the handler still listens is not. -/
def sendJustification (task : RunAggregator Hash S) (client : HeaderStore Hash) (hash : Hash)
    (multisignature : SignatureSet S) : Result (RunAggregator Hash S) :=
  match client.number hash with
  | none => .error .unwrap
  | some number => .ok { task with
      justificationTx := task.justificationTx.sendAll [⟨⟨multisignature⟩, hash, number⟩] }

/-- What happens to the task: the branches of `select`, one item of a batch after the
other, and the signals from outside. -/
inductive Event (Hash S : Type) where
  | batch (batch : List (AlephData Hash))
  | data (newBlockData : AlephData Hash)
  | batchDone
  | batchesEnded
  | multisigned (hash : Hash) (multisignature : SignatureSet S)
  | rmcCompleted (hash : Hash) (multisignature : SignatureSet S)
  | hashesEnded
  | networkClosed
  | exit

/-- One move, under what the client knows at that moment. -/
inductive Step (client : HeaderStore Hash) :
    RunAggregator Hash S → Event Hash S → RunAggregator Hash S → Prop
  | batch {task : RunAggregator Hash S} (batch) (select : task.position = .select)
      (unseen : task.lastBlockSeen = false) :
      Step client task (.batch batch) { task with position := .processing batch }
  | batchIgnored {task : RunAggregator Hash S} (batch) (select : task.position = .select)
      (seen : task.lastBlockSeen = true) : Step client task (.batch batch) task
  | data {task : RunAggregator Hash S} {newBlockData rest}
      (processing : task.position = .processing (newBlockData :: rest)) :
      Step client task (.data newBlockData)
        { task.processData client newBlockData with position := .processing rest }
  | batchDone {task : RunAggregator Hash S} (processing : task.position = .processing []) :
      Step client task .batchDone { task with position := .select }
  | batchesEnded {task : RunAggregator Hash S} (select : task.position = .select) :
      Step client task .batchesEnded { task with position := .awaitingExit }
  | multisigned {task task' : RunAggregator Hash S} {aggregator hash multisignature}
      (select : task.position = .select)
      (poll : task.aggregator.nextMultisignedHash = (aggregator, .returned hash multisignature))
      (run : { task with aggregator := aggregator }.sendJustification client hash multisignature =
        .ok task') :
      Step client task (.multisigned hash multisignature) task'
  | rmcCompleted {task : RunAggregator Hash S} (hash multisignature)
      (select : task.position = .select)
      (poll : task.aggregator.nextMultisignedHash.2 = .waiting) :
      Step client task (.rmcCompleted hash multisignature)
        { task with aggregator := task.aggregator.multisigned hash multisignature }
  | hashesEnded {task : RunAggregator Hash S} (select : task.position = .select)
      (poll : task.aggregator.nextMultisignedHash.2 = .ended) :
      Step client task .hashesEnded { task with position := .awaitingExit }
  | networkClosed {task : RunAggregator Hash S} (select : task.position = .select)
      (poll : task.aggregator.nextMultisignedHash.2 = .waiting) :
      Step client task .networkClosed { task with position := .awaitingExit }
  | exit {task : RunAggregator Hash S}
      (listening : task.position = .select ∨ task.position = .awaitingExit) :
      Step client task .exit { task with position := .ended }

end RunAggregator
end AlephNode
