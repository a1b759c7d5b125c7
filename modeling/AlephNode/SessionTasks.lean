import AlephNode.BlockSignatureAggregator
import AlephNode.OrderedShutdown
import AlephNode.SplitNetwork

/-!
# The tasks of an authority

`run_session_as_authority` spawns five tasks, and the task that it returns tells them to
exit. A channel has one end in each of two tasks; a task that ends drops its ends, and so
does a part of the forwarder that ends by itself. The member belongs to aleph_bft: it sends
and receives what it likes, drops its ends when it likes, and ends when it likes. What the
data store decides to send is left open, too.
-/
namespace AlephNode

inductive SessionTask where
  | member
  | aggregator
  | forwarder
  | refresher
  | dataStore
  deriving DecidableEq

/-- The member, and whether it still owns its network and its `DataIO`. -/
structure Member where
  running : Bool
  network : Bool
  dataIo : Bool

/-- Which of the three joined futures of the forwarder have not ended. -/
structure Forwarder where
  forwardData : Bool
  forwardAlephCmd : Bool
  forwardRmcCmd : Bool

/-- The five tasks, the task that ends them, and the channels between them, with the client
and the ends of the channels to the consensus network. A task that panics ends, too. -/
structure AuthorityTasks (PeerId Hash S Aleph Rmc : Type) where
  client : HeaderStore Hash
  commands : Channel (SessionCommand PeerId S (NetworkData Aleph Rmc))
  dataFromNetwork : Mpsc (NetworkData Aleph Rmc)
  split : SplitNetwork PeerId S Aleph Rmc
  readyMessages : Mpsc Aleph
  orderedBatches : Mpsc (List (AlephData Hash))
  messagesForRmc : Mpsc Rmc
  messagesFromRmc : Mpsc Rmc
  member : Member
  aggregator : Result (RunAggregator Hash S)
  forwarder : Forwarder
  refresher : Bool
  dataStore : Bool
  exits : SessionTask → ExitSignal
  exiting : Bool
  awaiting : Option SessionTask
  remaining : List SessionTask

namespace AuthorityTasks
variable {PeerId Hash S Aleph Rmc : Type}

def exitOrder : List SessionTask := [.member, .aggregator, .forwarder, .refresher, .dataStore]

/-- The tasks as they are spawned. Commands may be queued already, and data may have arrived;
the consensus network may have dropped its end of the session. -/
def spawn (client : Client Hash) (sessionId : SessionId) (lastBlock : ℕ)
    (commands : List (SessionCommand PeerId S (NetworkData Aleph Rmc)))
    (dataFromNetwork : Mpsc (NetworkData Aleph Rmc)) : AuthorityTasks PeerId Hash S Aleph Rmc where
  client := client.toHeaderStore
  commands := ⟨commands, true⟩
  dataFromNetwork := dataFromNetwork
  split := .splitNetwork sessionId
  readyMessages := .unbounded
  orderedBatches := .unbounded
  messagesForRmc := .unbounded
  messagesFromRmc := .unbounded
  member := ⟨true, true, true⟩
  aggregator := .ok (.start client lastBlock)
  forwarder := ⟨true, true, true⟩
  refresher := true
  dataStore := true
  exits _ := .pending
  exiting := false
  awaiting := none
  remaining := exitOrder

/-- The handle of a task resolves when the task does not run any more. -/
def running (s : AuthorityTasks PeerId Hash S Aleph Rmc) : SessionTask → Bool
  | .member => s.member.running
  | .aggregator =>
    match s.aggregator with
    | .ok task =>
      match task.position with
      | .ended => false
      | _ => true
    | .error _ => false
  | .forwarder =>
    s.forwarder.forwardData || s.forwarder.forwardAlephCmd || s.forwarder.forwardRmcCmd
  | .refresher => s.refresher
  | .dataStore => s.dataStore

def shutdown (s : AuthorityTasks PeerId Hash S Aleph Rmc) : Shutdown SessionTask :=
  ⟨s.running, s.exits, s.awaiting, s.remaining⟩

def dropMemberNetwork (s : AuthorityTasks PeerId Hash S Aleph Rmc) :
    AuthorityTasks PeerId Hash S Aleph Rmc :=
  { s with
    member.network := false
    split.alephCmd := s.split.alephCmd.dropSender
    readyMessages := s.readyMessages.dropReceiver }

def dropDataIo (s : AuthorityTasks PeerId Hash S Aleph Rmc) :
    AuthorityTasks PeerId Hash S Aleph Rmc :=
  { s with
    member.dataIo := false
    orderedBatches := s.orderedBatches.dropSender }

def endMember (s : AuthorityTasks PeerId Hash S Aleph Rmc) :
    AuthorityTasks PeerId Hash S Aleph Rmc :=
  { s.dropMemberNetwork.dropDataIo with member.running := false }

/-- `run_aggregator` owns the receiver of batches and its network for as long as it runs, and
both ends of the channels between them and the multicast. -/
def endAggregator (s : AuthorityTasks PeerId Hash S Aleph Rmc)
    (aggregator : Result (RunAggregator Hash S)) : AuthorityTasks PeerId Hash S Aleph Rmc :=
  { s with
    aggregator := aggregator
    orderedBatches := s.orderedBatches.dropReceiver
    split.rmcCmd := s.split.rmcCmd.dropSender
    split.rmcData := s.split.rmcData.dropReceiver
    messagesForRmc := s.messagesForRmc.dropSender.dropReceiver
    messagesFromRmc := s.messagesFromRmc.dropSender.dropReceiver }

/-- A message of the multicast is sent to the network, which is expected to work. -/
def sendToNetwork (s : AuthorityTasks PeerId Hash S Aleph Rmc) (message : Rmc) :
    AuthorityTasks PeerId Hash S Aleph Rmc :=
  match s.split.rmcSend message .all with
  | .ok split => { s with split := split }
  | .error _ => s.endAggregator (.error (.expect "sending message from rmc failed"))

/-- A message of the network is sent to the multicast, which is expected to work. -/
def sendToRmc (s : AuthorityTasks PeerId Hash S Aleph Rmc) (message : Rmc) :
    AuthorityTasks PeerId Hash S Aleph Rmc :=
  match s.messagesForRmc.unboundedSend message with
  | .ok messagesForRmc => { s with messagesForRmc := messagesForRmc }
  | .error _ => s.endAggregator (.error (.expect "sending message to rmc failed"))

def endForwardData (s : AuthorityTasks PeerId Hash S Aleph Rmc) :
    AuthorityTasks PeerId Hash S Aleph Rmc :=
  { s with
    forwarder.forwardData := false
    dataFromNetwork := s.dataFromNetwork.dropReceiver
    split.dataStore := s.split.dataStore.dropSender
    split.rmcData := s.split.rmcData.dropSender }

def endForwardAlephCmd (s : AuthorityTasks PeerId Hash S Aleph Rmc) :
    AuthorityTasks PeerId Hash S Aleph Rmc :=
  { s with
    forwarder.forwardAlephCmd := false
    split.alephCmd := s.split.alephCmd.dropReceiver }

def endForwardRmcCmd (s : AuthorityTasks PeerId Hash S Aleph Rmc) :
    AuthorityTasks PeerId Hash S Aleph Rmc :=
  { s with
    forwarder.forwardRmcCmd := false
    split.rmcCmd := s.split.rmcCmd.dropReceiver }

def endForwarder (s : AuthorityTasks PeerId Hash S Aleph Rmc) :
    AuthorityTasks PeerId Hash S Aleph Rmc :=
  s.endForwardData.endForwardAlephCmd.endForwardRmcCmd

def endDataStore (s : AuthorityTasks PeerId Hash S Aleph Rmc) :
    AuthorityTasks PeerId Hash S Aleph Rmc :=
  { s with
    dataStore := false
    split.dataStore := s.split.dataStore.dropReceiver
    readyMessages := s.readyMessages.dropSender }

/-- What the aggregator finds in its channels when it moves. -/
def Heard (s : AuthorityTasks PeerId Hash S Aleph Rmc) : RunAggregator.Event Hash S → Prop
  | .batch batch => ∃ rest, s.orderedBatches.messages = batch :: rest
  | .batchesEnded => s.orderedBatches.Ended
  | .networkClosed => s.split.rmcData.Ended
  | .exit => s.exits .aggregator ≠ .pending
  | _ => True

def aggregatorMoved (s : AuthorityTasks PeerId Hash S Aleph Rmc) (task : RunAggregator Hash S) :
    RunAggregator.Event Hash S → AuthorityTasks PeerId Hash S Aleph Rmc
  | .batch _ => { s with aggregator := .ok task, orderedBatches := s.orderedBatches.rest }
  | .exit => s.endAggregator (.ok task)
  | _ => { s with aggregator := .ok task }

inductive Event (PeerId Hash S Aleph Rmc : Type) where
  | memberSends (data : Aleph) (recipient : BftRecipient)
  | memberReceives
  | memberOrders (batch : List (AlephData Hash))
  | memberNetworkDropped
  | dataIoDropped
  | memberEnded
  | aggregator (event : RunAggregator.Event Hash S)
  | numberUnwrapped
  | sentToNetwork (message : Rmc)
  | sentToRmc (message : Rmc)
  | rmcSends (message : Rmc)
  | rmcReceives
  | dataForwarded (data : NetworkData Aleph Rmc)
  | dataEnded
  | alephCmdForwarded (command : SessionCommand PeerId S Aleph)
  | alephCmdEnded
  | rmcCmdForwarded (command : SessionCommand PeerId S Rmc)
  | rmcCmdEnded
  | forwarderEnded
  | dataStoreReceives
  | dataStoreSends (message : Aleph)
  | dataStoreEnded
  | refresherEnded
  | dataArrived (data : NetworkData Aleph Rmc)
  | sessionDropped
  | commandTaken
  | networkEnded
  | clientGrown (client : HeaderStore Hash)
  | exitReceived
  | exitSignalled (t : SessionTask)
  | exitAwaited (t : SessionTask)
  | exitTaskDropped

variable [DecidableEq Hash]

inductive OuterStep : AuthorityTasks PeerId Hash S Aleph Rmc → Event PeerId Hash S Aleph Rmc →
    AuthorityTasks PeerId Hash S Aleph Rmc → Prop
  | memberSends {s} (data) (recipient) (owns : s.member.network = true) :
      OuterStep s (.memberSends data recipient)
        { s with split := s.split.alephSend data recipient }
  | memberReceives {s} (owns : s.member.network = true) :
      OuterStep s .memberReceives { s with readyMessages := s.readyMessages.rest }
  | memberOrders {s} (batch) (owns : s.member.dataIo = true) :
      OuterStep s (.memberOrders batch)
        { s with orderedBatches := s.orderedBatches.trySend batch }
  | memberNetworkDropped {s} : OuterStep s .memberNetworkDropped s.dropMemberNetwork
  | dataIoDropped {s} : OuterStep s .dataIoDropped s.dropDataIo
  | memberEnded {s} : OuterStep s .memberEnded s.endMember
  | dataStoreReceives {s} (runs : s.dataStore = true) :
      OuterStep s .dataStoreReceives { s with split.dataStore := s.split.dataStore.rest }
  | dataStoreSends {s} (message) (runs : s.dataStore = true) :
      OuterStep s (.dataStoreSends message)
        { s with readyMessages := s.readyMessages.trySend message }
  | dataStoreEnded {s} (told : s.exits .dataStore ≠ .pending) :
      OuterStep s .dataStoreEnded s.endDataStore
  | refresherEnded {s} : OuterStep s .refresherEnded { s with refresher := false }

inductive AggregatorStep : AuthorityTasks PeerId Hash S Aleph Rmc →
    Event PeerId Hash S Aleph Rmc → AuthorityTasks PeerId Hash S Aleph Rmc → Prop
  | moved {s task event task'} (runs : s.aggregator = .ok task) (heard : s.Heard event)
      (step : RunAggregator.Step s.client task event task') :
      AggregatorStep s (.aggregator event) (s.aggregatorMoved task' event)
  | numberUnwrapped {s} {task : RunAggregator Hash S} {aggregator hash multisignature panic}
      (runs : s.aggregator = .ok task) (select : task.position = .select)
      (poll : task.aggregator.nextMultisignedHash = (aggregator, .returned hash multisignature))
      (run : { task with aggregator := aggregator }.sendJustification s.client hash
        multisignature = .error panic) :
      AggregatorStep s .numberUnwrapped (s.endAggregator (.error panic))
  | sentToNetwork {s} {task : RunAggregator Hash S} {message rest}
      (runs : s.aggregator = .ok task) (select : task.position = .select)
      (poll : task.aggregator.nextMultisignedHash.2 = .waiting)
      (next : s.messagesFromRmc.messages = message :: rest) :
      AggregatorStep s (.sentToNetwork message)
        ({ s with messagesFromRmc := s.messagesFromRmc.rest }.sendToNetwork message)
  | sentToRmc {s} {task : RunAggregator Hash S} {message rest}
      (runs : s.aggregator = .ok task) (select : task.position = .select)
      (poll : task.aggregator.nextMultisignedHash.2 = .waiting)
      (next : s.split.rmcData.messages = message :: rest) :
      AggregatorStep s (.sentToRmc message)
        ({ s with split.rmcData := s.split.rmcData.rest }.sendToRmc message)
  | rmcSends {s} (message) (runs : s.running .aggregator = true) :
      AggregatorStep s (.rmcSends message)
        { s with messagesFromRmc := s.messagesFromRmc.trySend message }
  | rmcReceives {s} (runs : s.running .aggregator = true) :
      AggregatorStep s .rmcReceives { s with messagesForRmc := s.messagesForRmc.rest }

/-- A move of the forwarder. Forwarding commands ends with their stream, or when the consensus
network does not receive any more. -/
inductive ForwarderStep : AuthorityTasks PeerId Hash S Aleph Rmc →
    Event PeerId Hash S Aleph Rmc → AuthorityTasks PeerId Hash S Aleph Rmc → Prop
  | dataForwarded {s data rest} (runs : s.forwarder.forwardData = true)
      (next : s.dataFromNetwork.messages = data :: rest) :
      ForwarderStep s (.dataForwarded data) { s with
        dataFromNetwork := s.dataFromNetwork.rest, split := s.split.forwardData data }
  | dataEnded {s} (ended : s.dataFromNetwork.Ended) :
      ForwarderStep s .dataEnded s.endForwardData
  | alephCmdForwarded {s command rest} (runs : s.forwarder.forwardAlephCmd = true)
      (next : s.split.alephCmd.messages = command :: rest) :
      ForwarderStep s (.alephCmdForwarded command) { s with
        split.alephCmd := s.split.alephCmd.rest
        commands := s.commands.sendAll [command.map .aleph] }
  | alephCmdEnded {s} (ended : s.split.alephCmd.Ended ∨ s.commands.receiverAlive = false) :
      ForwarderStep s .alephCmdEnded s.endForwardAlephCmd
  | rmcCmdForwarded {s command rest} (runs : s.forwarder.forwardRmcCmd = true)
      (next : s.split.rmcCmd.messages = command :: rest) :
      ForwarderStep s (.rmcCmdForwarded command) { s with
        split.rmcCmd := s.split.rmcCmd.rest
        commands := s.commands.sendAll [command.map .rmc] }
  | rmcCmdEnded {s} (ended : s.split.rmcCmd.Ended ∨ s.commands.receiverAlive = false) :
      ForwarderStep s .rmcCmdEnded s.endForwardRmcCmd
  | forwarderEnded {s} (told : s.exits .forwarder ≠ .pending) :
      ForwarderStep s .forwarderEnded s.endForwarder

/-- A move of the consensus network, of the client, or of the task that ends the others. When
it is dropped, so are all senders of exit signals that it still has. -/
inductive ExitStep : AuthorityTasks PeerId Hash S Aleph Rmc →
    Event PeerId Hash S Aleph Rmc → AuthorityTasks PeerId Hash S Aleph Rmc → Prop
  | dataArrived {s} (data) (open_ : s.dataFromNetwork.senderAlive = true) :
      ExitStep s (.dataArrived data)
        { s with dataFromNetwork := s.dataFromNetwork.trySend data }
  | sessionDropped {s} :
      ExitStep s .sessionDropped { s with dataFromNetwork := s.dataFromNetwork.dropSender }
  | commandTaken {s} :
      ExitStep s .commandTaken { s with commands.messages := s.commands.messages.tail }
  | networkEnded {s} :
      ExitStep s .networkEnded { s with
        commands := s.commands.dropReceiver, dataFromNetwork := s.dataFromNetwork.dropSender }
  | clientGrown {s client} (grows : s.client.Subset client) :
      ExitStep s (.clientGrown client) { s with client := client }
  | exitReceived {s} : ExitStep s .exitReceived { s with exiting := true }
  | exitSignalled {s t rest} (exiting : s.exiting = true) (free : s.awaiting = none)
      (next : s.remaining = t :: rest) :
      ExitStep s (.exitSignalled t) { s with
        exits := Function.update s.exits t .sent, awaiting := some t, remaining := rest }
  | exitAwaited {s t} (waits : s.awaiting = some t) (ended : s.running t = false) :
      ExitStep s (.exitAwaited t) { s with awaiting := none }
  | exitTaskDropped {s} :
      ExitStep s .exitTaskDropped { s with
        exits := fun t => if s.exits t = .pending then .dropped else s.exits t
        awaiting := none
        remaining := [] }

inductive Step (s : AuthorityTasks PeerId Hash S Aleph Rmc)
    (event : Event PeerId Hash S Aleph Rmc) (s' : AuthorityTasks PeerId Hash S Aleph Rmc) : Prop
  | outer (step : OuterStep s event s')
  | aggregator (step : AggregatorStep s event s')
  | forwarder (step : ForwarderStep s event s')
  | exit (step : ExitStep s event s')

end AuthorityTasks
end AlephNode
