import AlephNode.BlockImport
import AlephNode.BlockSignatureAggregator
import AlephNode.JustificationRuns
import AlephNode.NotificationStreams

/-!
# A node and all that notifies its handler

Notifications come from blocks that are imported with a justification, from justifications
that are imported alone, and from the aggregators of the sessions. Calls of `import_block`
overlap. The client's own import is outside: whatever it does, known headers only grow, and
a block that it reports as imported is known under the number in its header.
-/
namespace AlephNode

/-- A call of `import_block`, before or after the wrapped import. -/
inductive Importing (Hash Rest Aux E : Type) where
  | begun (block : BlockImportParams Hash Rest) (justifications : Option Justifications)
  | applied (block : BlockImportParams Hash Rest) (justifications : Option Justifications)
      (importResult : Except E (ImportResult Aux))

/-- The client is that of the handler. All aggregators send to one channel. -/
structure FinalityNode (Hash A S Rest Aux E : Type) where
  task : JustificationHandler.Task Hash A
  blockImport : AlephBlockImport Hash S
  imports : List (Importing Hash Rest Aux E)
  authorityJustificationTx : Channel (JustificationNotification Hash S)
  aggregators : FiniteMap SessionId (RunAggregator Hash S)

namespace FinalityNode
variable {Hash A S Rest Aux E : Type}

def client (node : FinalityNode Hash A S Rest Aux E) : Client Hash := node.task.handler.client

def streams (node : FinalityNode Hash A S Rest Aux E) : NotificationStreams Hash S :=
  ⟨node.blockImport.justificationTx.messages, node.authorityJustificationTx.messages⟩

/-- The handler has moved, and these notifications are left for it. -/
def handlerMoved (node : FinalityNode Hash A S Rest Aux E) (task : JustificationHandler.Task Hash A)
    (streams : NotificationStreams Hash S) : FinalityNode Hash A S Rest Aux E :=
  { node with
    task := task
    blockImport.justificationTx.messages := streams.importStream
    authorityJustificationTx.messages := streams.authorityStream }

/-- An aggregator has moved. What it sends goes to the common channel. -/
def aggregatorMoved (node : FinalityNode Hash A S Rest Aux E) (session : SessionId)
    (before after : RunAggregator Hash S) : FinalityNode Hash A S Rest Aux E :=
  { node with
    aggregators := node.aggregators.insert session after
    authorityJustificationTx := node.authorityJustificationTx.sendAll
      (after.justificationTx.messages.drop before.justificationTx.messages.length) }

inductive Event (Hash A S Rest Aux E : Type) where
  | importBegun (block : BlockImportParams Hash Rest) (now : ℕ)
  | importApplied (block : BlockImportParams Hash Rest)
      (importResult : Except E (ImportResult Aux)) (headers : HeaderStore Hash) (bestNumber : ℕ)
  | importFinished (block : BlockImportParams Hash Rest)
      (importResult : Except E (ImportResult Aux)) (now : ℕ)
  | justificationImported (hash : Hash) (number : ℕ) (justification : EngineId × List UInt8)
  | justificationRefused (error : ConsensusError)
  | aggregatorStarted (session : SessionId)
  | aggregator (session : SessionId) (event : RunAggregator.Event Hash S)
  | handler (event : JustificationHandler.Event Hash A S)

section Steps
variable [SignatureScheme A S] [MultiKeychain S] [Codec Hash] [Codec (SignatureSet S)]
  [DecidableEq Hash]

/-- One move of an import, of an aggregator or of the handler. -/
inductive Step : FinalityNode Hash A S Rest Aux E → Event Hash A S Rest Aux E →
    FinalityNode Hash A S Rest Aux E → Prop
  | importBegun {node : FinalityNode Hash A S Rest Aux E} {block now blockImport stripped
      justifications}
      (run : node.blockImport.beginImport block now = .ok (blockImport, stripped, justifications)) :
      Step node (.importBegun block now) { node with
        blockImport := blockImport, imports := .begun stripped justifications :: node.imports }
  | importApplied {node : FinalityNode Hash A S Rest Aux E} {before block justifications after
      importResult headers bestNumber}
      (pending : node.imports = before ++ .begun block justifications :: after)
      (grows : node.client.toHeaderStore.Subset headers)
      (imported : ∀ aux, importResult = .ok (.imported aux) → ∃ header,
        headers.header block.postHash = some header ∧ header.number = block.header.number) :
      Step node (.importApplied block importResult headers bestNumber) { node with
        task.handler.client.toHeaderStore := headers
        task.handler.client.bestNumber := bestNumber
        imports := before ++ .applied block justifications importResult :: after }
  | importFinished {node : FinalityNode Hash A S Rest Aux E} {before block justifications after
      applied importResult blockImport now}
      (pending : node.imports = before ++ .applied block justifications applied :: after)
      (run : node.blockImport.finishImport block justifications applied now =
        .ok (blockImport, importResult)) :
      Step node (.importFinished block importResult now)
        { node with blockImport := blockImport, imports := before ++ after }
  | justificationImported {node : FinalityNode Hash A S Rest Aux E} {hash number justification
      blockImport}
      (run : node.blockImport.importJustification hash number justification = .ok blockImport) :
      Step node (.justificationImported hash number justification)
        { node with blockImport := blockImport }
  | justificationRefused {node : FinalityNode Hash A S Rest Aux E} {hash number justification error}
      (run : node.blockImport.importJustification hash number justification = .error error) :
      Step node (.justificationRefused error) node
  | aggregatorStarted {node : FinalityNode Hash A S Rest Aux E} (session) :
      Step node (.aggregatorStarted session) { node with
        aggregators := node.aggregators.insert session (.start node.client
          (lastBlockOfSession session node.task.handler.chainCadence.sessionPeriod)) }
  | aggregator {node : FinalityNode Hash A S Rest Aux E} {session task event task'}
      (running : node.aggregators.lookup session = some task)
      (step : RunAggregator.Step node.client.toHeaderStore task event task') :
      Step node (.aggregator session event) (node.aggregatorMoved session task task')
  | handler {node : FinalityNode Hash A S Rest Aux E} {event task streams}
      (step : JustificationHandler.Step node.task event task)
      (takes : JustificationHandler.Takes node.streams event streams)
      (own : ∀ headers bestNumber, event ≠ .headersImported headers bestNumber) :
      Step node (.handler event) (node.handlerMoved task streams)

/-- Where a notification comes from: the justification of a block that the client has
imported, a justification that was imported alone, or a multisignature of an aggregator. -/
inductive Produced (events : List (Event Hash A S Rest Aux E))
    (notification : JustificationNotification Hash S) : Prop
  | withBlock {block : BlockImportParams Hash Rest} {now raw rest aux headers bestNumber}
      (begun : .importBegun block now ∈ events)
      (carries : block.justifications.bind (·.intoJustification alephEngineId) = some raw)
      (decoded : Codec.decode raw = some (notification.justification, rest))
      (applied : .importApplied { block with justifications := none } (.ok (.imported aux)) headers
        bestNumber ∈ events)
      (hash : block.postHash = notification.hash)
      (number : block.header.number = notification.number)
  | alone {raw rest}
      (imported : .justificationImported notification.hash notification.number
        (alephEngineId, raw) ∈ events)
      (decoded : Codec.decode raw = some (notification.justification, rest))
  | aggregated {session}
      (multisigned : .aggregator session
        (.multisigned notification.hash notification.justification.signature) ∈ events)

/-- All blocks are of one tree, and who imports a justification alone knows the number of its
block. -/
def Assumed (tree : HeaderStore Hash) (_ : FinalityNode Hash A S Rest Aux E) :
    Event Hash A S Rest Aux E → Prop
  | .importApplied _ _ headers _ => headers.Subset tree
  | .justificationImported hash number _ =>
    ∀ header, tree.header hash = some header → header.number = number
  | _ => True

end Steps

structure AtStart (tree : HeaderStore Hash) (node : FinalityNode Hash A S Rest Aux E) : Prop where
  loop : node.task.loop = .top
  finalizeCalls : node.task.handler.finalizeCalls = []
  headers : node.client.toHeaderStore.Subset tree
  imports : node.imports = []
  streams : node.streams.remaining = []

end FinalityNode
end AlephNode
