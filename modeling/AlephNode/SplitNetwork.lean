import AlephNode.ConsensusNetwork

/-!
# The two networks of a session

`split_network` shares the data network of a session between the member and the aggregator.
Each of them sends through a channel of its own, whose commands are forwarded with the
variant of the component added; and the data that comes in is passed on by its variant.
-/
namespace AlephNode

inductive NetworkData (Aleph Rmc : Type) where
  | aleph (data : Aleph)
  | rmc (data : Rmc)

def NetworkData.aleph? {Aleph Rmc : Type} : NetworkData Aleph Rmc → Option Aleph
  | .aleph data => some data
  | .rmc _ => none

def NetworkData.rmc? {Aleph Rmc : Type} : NetworkData Aleph Rmc → Option Rmc
  | .aleph _ => none
  | .rmc data => some data

instance {Aleph Rmc : Type} [Codec Aleph] [Codec Rmc] : Codec (NetworkData Aleph Rmc) where
  encode
    | .aleph data => 0 :: Codec.encode data
    | .rmc data => 1 :: Codec.encode data
  decode
    | 0 :: bytes => (Codec.decode bytes).map (fun (data, rest) => (.aleph data, rest))
    | 1 :: bytes => (Codec.decode bytes).map (fun (data, rest) => (.rmc data, rest))
    | _ => none

/-- `SessionCommand::map` -/
def SessionCommand.map {PeerId S D E : Type} (f : D → E) :
    SessionCommand PeerId S D → SessionCommand PeerId S E
  | .ofMeta message recipient => .ofMeta message recipient
  | .ofData sessionId data recipient => .ofData sessionId (f data) recipient

/-- `aleph_bft::Recipient` -/
inductive BftRecipient where
  | everyone
  | node (node : NodeIndex)

def Recipient.ofBft : BftRecipient → Recipient NodeIndex
  | .everyone => .all
  | .node node => .target node

/-- `Error` of the crate. -/
inductive Error where
  | sendData

/-- The channels that `split_network` makes or is given: two for commands, two for data. -/
structure SplitNetwork (PeerId S Aleph Rmc : Type) where
  sessionId : SessionId
  alephCmd : Mpsc (SessionCommand PeerId S Aleph)
  rmcCmd : Mpsc (SessionCommand PeerId S Rmc)
  dataStore : Mpsc Aleph
  rmcData : Mpsc Rmc

namespace SplitNetwork
variable {PeerId S Aleph Rmc : Type}

def splitNetwork (sessionId : SessionId) : SplitNetwork PeerId S Aleph Rmc :=
  ⟨sessionId, .unbounded, .unbounded, .unbounded, .unbounded⟩

/-- `AlephNetwork::send`; a failure is logged. -/
def alephSend (split : SplitNetwork PeerId S Aleph Rmc) (data : Aleph)
    (recipient : BftRecipient) : SplitNetwork PeerId S Aleph Rmc :=
  { split with alephCmd :=
      split.alephCmd.trySend (.ofData split.sessionId data (.ofBft recipient)) }

/-- `RmcNetwork::send` -/
def rmcSend (split : SplitNetwork PeerId S Aleph Rmc) (data : Rmc)
    (recipient : Recipient NodeIndex) : Except Error (SplitNetwork PeerId S Aleph Rmc) :=
  match split.rmcCmd.unboundedSend (.ofData split.sessionId data recipient) with
  | .ok rmcCmd => .ok { split with rmcCmd := rmcCmd }
  | .error _ => .error .sendData

theorem rmcSend_alive {split : SplitNetwork PeerId S Aleph Rmc}
    (h : split.rmcCmd.receiverAlive = true) (data : Rmc) (recipient : Recipient NodeIndex) :
    split.rmcSend data recipient = .ok { split with
      rmcCmd := split.rmcCmd.trySend (.ofData split.sessionId data recipient) } := by
  rw [rmcSend, Mpsc.unboundedSend_alive h]

/-- One round of `forward_data`; failures are logged. -/
def forwardData (split : SplitNetwork PeerId S Aleph Rmc) :
    NetworkData Aleph Rmc → SplitNetwork PeerId S Aleph Rmc
  | .aleph data => { split with dataStore := split.dataStore.trySend data }
  | .rmc data => { split with rmcData := split.rmcData.trySend data }

/-- What the channels of data hold afterwards and did not hold before. -/
def added (before after : SplitNetwork PeerId S Aleph Rmc) : List (NetworkData Aleph Rmc) :=
  (after.dataStore.messages.drop before.dataStore.messages.length).map .aleph ++
    (after.rmcData.messages.drop before.rmcData.messages.length).map .rmc

theorem added_forwardData_sublist (split : SplitNetwork PeerId S Aleph Rmc)
    (data : NetworkData Aleph Rmc) : (split.added (split.forwardData data)).Sublist [data] := by
  cases data with
  | aleph data =>
    simp only [added, forwardData, Mpsc.trySend_added, List.drop_length, List.map_nil,
      List.append_nil]
    split <;> simp
  | rmc data =>
    simp only [added, forwardData, Mpsc.trySend_added, List.drop_length, List.map_nil,
      List.nil_append]
    split <;> simp

theorem added_forwardData_alive {split : SplitNetwork PeerId S Aleph Rmc}
    (hstore : split.dataStore.receiverAlive = true) (hrmc : split.rmcData.receiverAlive = true)
    (data : NetworkData Aleph Rmc) : split.added (split.forwardData data) = [data] := by
  cases data with
  | aleph data => simp [added, forwardData, Mpsc.trySend_added, hstore]
  | rmc data => simp [added, forwardData, Mpsc.trySend_added, hrmc]

theorem forwardData_messages (split : SplitNetwork PeerId S Aleph Rmc)
    (data : NetworkData Aleph Rmc) :
    (split.forwardData data).dataStore.messages =
        split.dataStore.messages ++
          (split.added (split.forwardData data)).filterMap NetworkData.aleph? ∧
      (split.forwardData data).rmcData.messages =
        split.rmcData.messages ++
          (split.added (split.forwardData data)).filterMap NetworkData.rmc? := by
  cases data with
  | aleph data =>
    simp only [added, forwardData, Mpsc.trySend_added, List.drop_length]
    cases halive : split.dataStore.receiverAlive <;>
      simp [Mpsc.trySend, Channel.sendAll, halive, NetworkData.aleph?, NetworkData.rmc?]
  | rmc data =>
    simp only [added, forwardData, Mpsc.trySend_added, List.drop_length]
    cases halive : split.rmcData.receiverAlive <;>
      simp [Mpsc.trySend, Channel.sendAll, halive, NetworkData.aleph?, NetworkData.rmc?]

end SplitNetwork
end AlephNode
