import AlephNode.FifoStages
import AlephNode.TransportNodes

/-!
# The stages between a handle and `forward_data`

The data of one component of one session that a node sends goes from the queue of the
component to the queue of the consensus network and to the link; what a node gets goes from
the notification in hand to the queue of the session. Each of these is a stage that keeps
the order. What other sessions and the other component send goes through the same stages
and never counts as theirs.
-/
namespace AlephNode

/-- The encoding of the data of the components is read back if those of the components are. -/
theorem NetworkData.decode_encode {Aleph Rmc : Type} [Codec Aleph] [Codec Rmc]
    (haleph : ∀ data : Aleph, Codec.decode (Codec.encode data) = some (data, []))
    (hrmc : ∀ data : Rmc, Codec.decode (Codec.encode data) = some (data, []))
    (data : NetworkData Aleph Rmc) : Codec.decode (Codec.encode data) = some (data, []) := by
  cases data with
  | aleph data =>
    show (Codec.decode (Codec.encode data)).map _ = _
    rw [haleph]
    rfl
  | rmc data =>
    show (Codec.decode (Codec.encode data)).map _ = _
    rw [hrmc]
    rfl

namespace TransportNode
open ConsensusNetwork (queue_cases handed_data userData StandsForOwn)
open Transport (Reaches)

private theorem count_filterMap_le_one {α β : Type} [DecidableEq α] [DecidableEq β] {f : α → Option β}
    {a : α} {b : β} (hf : ∀ a', f a' = some b → a' = a) {as : List α} (hnodup : as.Nodup) :
    (as.filterMap f).count b ≤ 1 := by
  have hcount : (as.filterMap f).count b ≤ as.count a := by
    clear hnodup
    induction as with
    | nil => exact Nat.le_refl _
    | cons a' as ih =>
      rw [List.filterMap_cons, List.count_cons]
      split
      · omega
      · next b' hb =>
        rw [List.count_cons]
        by_cases hsame : b' = b
        · have ha : a' = a := hf a' (hsame ▸ hb)
          simp [hsame, ha, ih]
        · simp only [beq_iff_eq, hsame, if_false]
          omega
  exact hcount.trans (List.nodup_iff_count_le_one.mp hnodup a)

section Payloads
variable {PeerId A S D E : Type}

def payload (PeerId S : Type) [PeerIdBytes PeerId] [Codec NodeIndex] [Codec S] [Codec D]
    (part : D → Option E) (session : SessionId) (raw : List UInt8) : Option E :=
  match (Codec.decode raw : Option (InternalMessage PeerId S D × List UInt8)) with
  | some (.ofData session' data, _) => if session' = session then part data else none
  | _ => none

/-- The data of the session that a command carries to the node, if it counts. -/
def addressed (part : D → Option E) (session : SessionId) (node : NodeIndex) :
    SessionCommand PeerId S D → Option E
  | .ofMeta _ _ => none
  | .ofData session' data recipient =>
    if session' = session ∧ Reaches node recipient then part data else none

variable [PeerIdBytes PeerId] [Codec NodeIndex] [Codec S] [Codec D] {part : D → Option E}
  {session : SessionId}

theorem payload_ofData {data : D} (hdata : Codec.decode (Codec.encode data) = some (data, []))
    (session' : SessionId) :
    payload PeerId S part session
      (Codec.encode (.ofData session' data : InternalMessage PeerId S D)) =
      if session' = session then part data else none := by
  rw [payload, decode_encode_ofData hdata]

theorem payload_ofMeta (message : MetaMessage PeerId S) :
    payload PeerId S part session
      (Codec.encode (.ofMeta message : InternalMessage PeerId S D)) = none := by
  unfold payload
  split
  · next hdecode => exact absurd hdecode decode_encode_ofMeta
  · rfl

variable [DecidableEq PeerId] {net : ConsensusNetwork PeerId A S D} {peer : PeerId}

theorem sentTo_map (message : InternalMessage PeerId S D) (remotes : List PeerId) :
    sentTo peer (remotes.map (net.sendMessage message)) =
      List.replicate (remotes.count peer) (Codec.encode message) := by
  unfold sentTo
  induction remotes with
  | nil => rfl
  | cons remote remotes ih =>
    rw [List.map_cons, ConsensusNetwork.sendMessage, List.filterMap_cons, ih, List.count_cons]
    by_cases hremote : remote = peer
    · simp [hremote, List.replicate_succ]
    · simp [hremote]

private theorem sentTo_ofData_payloads {index : SessionId → NodeIndex} {session' : SessionId}
    {data : D} {recipient : Recipient NodeIndex} (remotes : List PeerId)
    (hdata : ∀ data : D, Codec.decode (Codec.encode data) = some (data, []))
    (hcount : remotes.count peer ≤ 1)
    (hreaches : peer ∈ remotes → Reaches (index session') recipient) :
    ((sentTo peer (remotes.map (net.sendMessage (.ofData session' data)))).filterMap
        (payload PeerId S part session)).Sublist
      (addressed part session (index session)
        (.ofData session' data recipient : SessionCommand PeerId S D)).toList := by
  rw [sentTo_map]
  obtain hnot | hmem := Nat.eq_zero_or_pos (remotes.count peer)
  · rw [hnot]
    exact List.nil_sublist _
  · have hone : remotes.count peer = 1 := Nat.le_antisymm hcount hmem
    have hreaches' := hreaches (List.count_pos_iff.mp hmem)
    rw [hone, List.replicate_one, List.filterMap_cons, payload_ofData (hdata data)]
    by_cases hsession : session' = session
    · subst hsession
      cases hpart : part data with
      | none => simp
      | some e => simp [addressed, hreaches', hpart]
    · simp [hsession]

/-- What a command sends to the peer is carried to its index, and at most once. -/
theorem onCommand_payloads {index : SessionId → NodeIndex} {peerOrder : List PeerId}
    {nodeOrder : List NodeIndex} {command : SessionCommand PeerId S D}
    (hdata : ∀ data : D, Codec.decode (Codec.encode data) = some (data, []))
    (hstands : ∀ session node, net.peers.get session node = some peer → node = index session)
    (henumerates : ∀ session nodes, net.peers.toPeer.lookup session = some nodes →
      (∃ data recipient, command = .ofData session data recipient) →
      Enumerates nodeOrder nodes.keys) :
    ((sentTo peer (net.onCommand peerOrder nodeOrder command)).filterMap
        (payload PeerId S part session)).Sublist
      (addressed part session (index session) command).toList := by
  cases command with
  | ofMeta message recipient =>
    have hnone : ∀ remotes : List PeerId,
        ((sentTo peer (remotes.map (net.sendMessage (.ofMeta message)))).filterMap
          (payload PeerId S part session)).Sublist
        (addressed part session (index session) (.ofMeta message recipient)).toList := by
      intro remotes
      rw [sentTo_map, List.filterMap_replicate_of_none (payload_ofMeta message)]
      exact List.nil_sublist _
    cases recipient with
    | all => exact hnone peerOrder
    | target remote => exact hnone [remote]
  | ofData session' data recipient =>
    cases recipient with
    | all =>
      simp only [ConsensusNetwork.onCommand]
      apply sentTo_ofData_payloads _ hdata
      · unfold Peers.peersAuthenticatedFor
        split
        · exact Nat.zero_le _
        · next nodes hnodes =>
          have hget : ∀ node, nodes.lookup node = some peer → node = index session' := by
            intro node hnode
            exact hstands session' node (by simp [Peers.get, hnodes, hnode])
          exact count_filterMap_le_one hget (henumerates session' nodes hnodes ⟨_, _, rfl⟩).1
      · exact fun _ => trivial
    | target node =>
      simp only [ConsensusNetwork.onCommand]
      split
      · next remote hget =>
        apply sentTo_ofData_payloads [remote] hdata
        · exact List.count_le_length
        · intro hmem
          exact hstands session' node (List.mem_singleton.mp hmem ▸ hget)
      · exact List.nil_sublist _

end Payloads

section Channels
variable {α β : Type} {f : α → Option β}

theorem relays_taken (a : α) (rest : List α) :
    Relays ((a :: rest).filterMap f) [] (f a).toList (rest.filterMap f) := by
  rw [← List.singleton_append, List.filterMap_append]
  cases h : f a with
  | none =>
    rw [List.filterMap_cons_none h]
    exact .idle
  | some b =>
    rw [List.filterMap_cons_some h]
    exact .leave [b] _

theorem relays_sent (c : Channel α) (a : α) :
    Relays (c.messages.filterMap f) (f a).toList [] ((c.sendAll [a]).messages.filterMap f) := by
  unfold Channel.sendAll
  split
  · rw [List.filterMap_append]
    cases h : f a with
    | none =>
      rw [List.filterMap_cons_none h]
      exact .enter _ _
    | some b =>
      rw [List.filterMap_cons_some h]
      exact .enter _ _
  · exact Relays.idle.enters_mono (List.nil_sublist _)

end Channels

section Sender
variable {PeerId A S D E : Type} [DecidableEq PeerId] [PeerIdBytes PeerId] [SignatureScheme A S]
  [Codec NodeIndex] [Codec S] [Codec D] {task task' : ConsensusNetwork.Task PeerId A S D}
  {event : ConsensusNetwork.Event PeerId A S D} {part : D → Option E} {session : SessionId}
  {index : SessionId → NodeIndex} {peer : PeerId}

def handed (part : D → Option E) (session : SessionId) (node : NodeIndex) :
    ConsensusNetwork.Event PeerId A S D → Option E
  | .dataQueued session' data recipient =>
    addressed part session node (.ofData session' data recipient : SessionCommand PeerId S D)
  | _ => none

/-- The queue of the consensus network is a stage between the forwarders and the link. -/
theorem commands_relay (part : D → Option E) (session : SessionId)
    (hstep : ConsensusNetwork.Step task event task')
    (hdata : ∀ data : D, Codec.decode (Codec.encode data) = some (data, []))
    (hstands : StandsForOwn index peer task) :
    Relays (task.network.commands.messages.filterMap (addressed part session (index session)))
      (handed part session (index session) event).toList
      ((sentTo peer (task'.calls.drop task.calls.length)).filterMap
        (payload PeerId S part session))
      (task'.network.commands.messages.filterMap (addressed part session (index session))) := by
  obtain ⟨later, new, hlater, hqueues, hcalls, hnone⟩ |
    ⟨command, _, _, rfl, hnext, _, henumerates, hcalls⟩ := queue_cases hstep
  · have hsent : sentTo peer new = [] := by
      rw [List.eq_nil_iff_forall_not_mem]
      intro raw hraw
      obtain ⟨protocol, hcall⟩ := ConsensusNetwork.mem_sentTo.mp hraw
      exact hnone _ _ _ hcall
    rw [hcalls, List.drop_left, hsent, List.filterMap_nil]
    cases event with
    | dataQueued session' data recipient =>
      cases hstep
      exact relays_sent _ _
    | _ =>
      have hnone : later.filterMap (addressed part session (index session)) = [] := by
        rw [List.filterMap_eq_nil_iff]
        intro command hcommand
        cases hqueues command hcommand with
        | announced | requested | broadcast => rfl
        | data handed => cases handed
      rw [hlater, List.filterMap_append, hnone, List.append_nil]
      exact .idle
  · rw [hcalls, List.drop_left, hnext]
    exact (relays_taken command _).leaves_mono (onCommand_payloads hdata hstands henumerates)

end Sender

section Nodes
variable {PeerId A S Aleph Rmc E : Type}

/-- What waits in the channels of the components for the node, if it counts. -/
def pendingIn (part : NetworkData Aleph Rmc → Option E) (session : SessionId) (node : NodeIndex)
    (split : SplitNetwork PeerId S Aleph Rmc) : List E :=
  split.alephCmd.messages.filterMap (addressed (fun data => part (.aleph data)) session node) ++
    split.rmcCmd.messages.filterMap (addressed (fun data => part (.rmc data)) session node)

def pending (part : NetworkData Aleph Rmc → Option E) (session : SessionId) (node : NodeIndex)
    (splits : FiniteMap SessionId (SplitNetwork PeerId S Aleph Rmc)) : List E :=
  (splits.lookup session).elim [] (pendingIn part session node)

def queued (part : NetworkData Aleph Rmc → Option E) (session : SessionId) (index : NodeIndex)
    (node : TransportNode PeerId A S Aleph Rmc) : List E :=
  node.task.network.commands.messages.filterMap (addressed part session index) ++
    pending part session index node.splits

def OfOneComponent (part : NetworkData Aleph Rmc → Option E) : Prop :=
  (∀ data, part (.aleph data) = none) ∨ ∀ data, part (.rmc data) = none

variable {part : NetworkData Aleph Rmc → Option E} {session session' : SessionId}
  {index : NodeIndex} {split split' : SplitNetwork PeerId S Aleph Rmc}
  {splits : FiniteMap SessionId (SplitNetwork PeerId S Aleph Rmc)} {enters leaves : List E}

theorem addressed_none {D : Type} {part : D → Option E} (h : ∀ data, part data = none)
    (command : SessionCommand PeerId S D) : addressed part session index command = none := by
  cases command with
  | ofMeta => rfl
  | ofData session' data recipient => simp [addressed, h]

theorem addressed_map {D : Type} (f : D → NetworkData Aleph Rmc)
    (command : SessionCommand PeerId S D) :
    addressed part session index (command.map f) =
      addressed (fun data => part (f data)) session index command := by
  cases command with
  | ofMeta | ofData => rfl

theorem pending_insert_self :
    pending part session index (splits.insert session split) = pendingIn part session index split := by
  rw [pending, Finmap.lookup_insert, Option.elim_some]

theorem pending_insert_ne (h : session' ≠ session) :
    pending part session index (splits.insert session' split) =
      pending part session index splits := by
  rw [pending, Finmap.lookup_insert_of_ne _ (Ne.symm h), pending]

theorem pending_of_lookup (h : splits.lookup session = some split) :
    pending part session index splits = pendingIn part session index split := by
  rw [pending, h, Option.elim_some]

theorem pendingIn_rmc (h : ∀ data, part (.aleph data) = none) :
    pendingIn part session index split =
      split.rmcCmd.messages.filterMap (addressed (fun data => part (.rmc data)) session index) := by
  rw [pendingIn, List.filterMap_eq_nil_iff.mpr fun command _ => addressed_none h command,
    List.nil_append]

theorem pendingIn_aleph (h : ∀ data, part (.rmc data) = none) :
    pendingIn part session index split =
      split.alephCmd.messages.filterMap (addressed (fun data => part (.aleph data)) session index) := by
  rw [pendingIn, List.filterMap_eq_nil_iff.mpr fun command _ => addressed_none h command,
    List.append_nil]

theorem pendingIn_relays_aleph (hpart : OfOneComponent part)
    (hrelays : Relays
      (split.alephCmd.messages.filterMap (addressed (fun data => part (.aleph data)) session index))
      enters leaves
      (split'.alephCmd.messages.filterMap (addressed (fun data => part (.aleph data)) session index)))
    (hnone : (∀ data, part (.aleph data) = none) → enters = [] ∧ leaves = [])
    (hrmc : split'.rmcCmd = split.rmcCmd) :
    Relays (pendingIn part session index split) enters leaves
      (pendingIn part session index split') := by
  obtain haleph | hother := hpart
  · obtain ⟨rfl, rfl⟩ := hnone haleph
    rw [pendingIn_rmc haleph, pendingIn_rmc haleph, hrmc]
    exact .idle
  · rw [pendingIn_aleph hother, pendingIn_aleph hother]
    exact hrelays

theorem pendingIn_relays_rmc (hpart : OfOneComponent part)
    (hrelays : Relays
      (split.rmcCmd.messages.filterMap (addressed (fun data => part (.rmc data)) session index))
      enters leaves
      (split'.rmcCmd.messages.filterMap (addressed (fun data => part (.rmc data)) session index)))
    (hnone : (∀ data, part (.rmc data) = none) → enters = [] ∧ leaves = [])
    (haleph : split'.alephCmd = split.alephCmd) :
    Relays (pendingIn part session index split) enters leaves
      (pendingIn part session index split') := by
  obtain hother | hrmc := hpart
  · rw [pendingIn_rmc hother, pendingIn_rmc hother]
    exact hrelays
  · obtain ⟨rfl, rfl⟩ := hnone hrmc
    rw [pendingIn_aleph hrmc, pendingIn_aleph hrmc, haleph]
    exact .idle

theorem alephSend_relays (hpart : OfOneComponent part) (hsplit : split.OfSession session')
    (data : Aleph) (recipient : BftRecipient) :
    Relays (pendingIn part session index split)
      (addressed (fun data => part (.aleph data)) session index
        (.ofData session' data (.ofBft recipient) : SessionCommand PeerId S Aleph)).toList []
      (pendingIn part session index (split.alephSend data recipient)) := by
  apply pendingIn_relays_aleph hpart
  · rw [← hsplit.sessionId_eq]
    exact relays_sent _ _
  · intro hnone
    rw [addressed_none hnone]
    exact ⟨rfl, rfl⟩
  · rfl

theorem rmcSend_relays {data : Rmc} {recipient : Recipient NodeIndex} (hpart : OfOneComponent part)
    (hsplit : split.OfSession session') (hsend : split.rmcSend data recipient = .ok split') :
    Relays (pendingIn part session index split)
      (addressed (fun data => part (.rmc data)) session index
        (.ofData session' data recipient : SessionCommand PeerId S Rmc)).toList []
      (pendingIn part session index split') := by
  rw [rmcSend_eq hsend]
  apply pendingIn_relays_rmc hpart
  · rw [← hsplit.sessionId_eq]
    exact relays_sent _ _
  · intro hnone
    rw [addressed_none hnone]
    exact ⟨rfl, rfl⟩
  · rfl

theorem alephCmdRest_relays {command : SessionCommand PeerId S Aleph}
    {rest : List (SessionCommand PeerId S Aleph)} (hpart : OfOneComponent part)
    (hnext : split.alephCmd.messages = command :: rest) :
    Relays (pendingIn part session index split) []
      (addressed part session index (command.map .aleph)).toList
      (pendingIn part session index { split with alephCmd := split.alephCmd.rest }) := by
  rw [addressed_map]
  apply pendingIn_relays_aleph hpart
  · simp only [Mpsc.rest, hnext, List.tail_cons]
    exact relays_taken command rest
  · intro hnone
    rw [addressed_none hnone]
    exact ⟨rfl, rfl⟩
  · rfl

theorem rmcCmdRest_relays {command : SessionCommand PeerId S Rmc}
    {rest : List (SessionCommand PeerId S Rmc)} (hpart : OfOneComponent part)
    (hnext : split.rmcCmd.messages = command :: rest) :
    Relays (pendingIn part session index split) []
      (addressed part session index (command.map .rmc)).toList
      (pendingIn part session index { split with rmcCmd := split.rmcCmd.rest }) := by
  rw [addressed_map]
  apply pendingIn_relays_rmc hpart
  · simp only [Mpsc.rest, hnext, List.tail_cons]
    exact relays_taken command rest
  · intro hnone
    rw [addressed_none hnone]
    exact ⟨rfl, rfl⟩
  · rfl

/-- A move of one session relays what it does for this session, and nothing for others. -/
theorem pending_relays (hlookup : splits.lookup session' = some split)
    (hsame : Relays (pendingIn part session index split) enters leaves
      (pendingIn part session index split'))
    (hother : session' ≠ session → enters = [] ∧ leaves = []) :
    Relays (pending part session index splits) enters leaves
      (pending part session index (splits.insert session' split')) := by
  by_cases hsession : session' = session
  · subst hsession
    rw [pending_of_lookup hlookup, pending_insert_self]
    exact hsame
  · obtain ⟨rfl, rfl⟩ := hother hsession
    rw [pending_insert_ne hsession]
    exact .idle

/-- The network moves, and no component of the session is touched. -/
theorem pending_network {node : TransportNode PeerId A S Aleph Rmc}
    {index : SessionId → NodeIndex}
    {event : ConsensusNetwork.Event PeerId A S (NetworkData Aleph Rmc)} (outside : node.Outside event) :
    pending part session (index session) (node.splitStarted event) =
      pending part session (index session) node.splits := by
  cases event with
  | sessionStarted session' keychain =>
    by_cases hsession : session' = session
    · subst hsession
      have hnone : node.splits.lookup session' = none := outside
      simp [splitStarted, pending, pendingIn, hnone, SplitNetwork.splitNetwork, Mpsc.unbounded,
        Channel.unbounded]
    · exact pending_insert_ne hsession
  | _ => rfl

end Nodes

section Sends
variable {PeerId A S Aleph Rmc E : Type} [DecidableEq PeerId] [PeerIdBytes PeerId]
  [SignatureScheme A S] [Codec NodeIndex] [Codec S] [Codec Aleph] [Codec Rmc]
  {node node' : TransportNode PeerId A S Aleph Rmc} {event : Event PeerId A S Aleph Rmc}
  {part : NetworkData Aleph Rmc → Option E} {session : SessionId}
  {index : SessionId → NodeIndex} {peer : PeerId}

omit [SignatureScheme A S] in
private theorem internal {enters middle : List E} (hcalls : node'.task.calls = node.task.calls)
    (hcommands : Relays
      (node.task.network.commands.messages.filterMap (addressed part session (index session)))
      middle []
      (node'.task.network.commands.messages.filterMap (addressed part session (index session))))
    (hpending : Relays (pending part session (index session) node.splits) enters middle
      (pending part session (index session) node'.splits)) :
    Relays (queued part session (index session) node) enters
      ((outgoing peer node node').filterMap (payload PeerId S part session))
      (queued part session (index session) node') := by
  rw [outgoing, hcalls, List.drop_length]
  exact Relays.comp hcommands hpending

/-- What a node sends of a session goes from the handles to the link. -/
theorem queued_relay (hpart : OfOneComponent part)
    (hdata : ∀ data : NetworkData Aleph Rmc, Codec.decode (Codec.encode data) = some (data, []))
    (session : SessionId) (hsplits : SplitsSound node.splits)
    (hstands : StandsForOwn index peer node.task) (hstep : Step node event node') :
    Relays (queued part session (index session) node)
      (Transport.sent part session (index session) (.a event)).toList
      ((outgoing peer node node').filterMap (payload PeerId S part session))
      (queued part session (index session) node') := by
  cases hstep with
  | @network event _ outside step =>
    have hcommands := commands_relay part session step hdata hstands
    have hhanded : handed part session (index session) event = none := by
      cases event with
      | dataQueued => exact outside.elim
      | _ => rfl
    rw [hhanded] at hcommands
    apply Relays.comp hcommands
    rw [pending_network outside]
    exact .idle
  | alephSent data recipient runs =>
    refine internal rfl .idle (pending_relays runs ?_ ?_)
    · exact alephSend_relays hpart (hsplits _ _ runs) data recipient
    · intro hne
      exact ⟨by simp [Transport.sent, hne], rfl⟩
  | rmcSent runs sends =>
    refine internal rfl .idle (pending_relays runs ?_ ?_)
    · exact rmcSend_relays hpart (hsplits _ _ runs) sends
    · intro hne
      exact ⟨by simp [Transport.sent, hne], rfl⟩
  | alephCmdForwarded runs next =>
    refine internal rfl (relays_sent _ _) (pending_relays runs ?_ ?_)
    · exact alephCmdRest_relays hpart next
    · intro hne
      obtain ⟨data, recipient, rfl⟩ := (hsplits _ _ runs).aleph _ (next ▸ List.mem_cons_self)
      exact ⟨rfl, by simp [SessionCommand.map, addressed, hne]⟩
  | rmcCmdForwarded runs next =>
    refine internal rfl (relays_sent _ _) (pending_relays runs ?_ ?_)
    · exact rmcCmdRest_relays hpart next
    · intro hne
      obtain ⟨data, recipient, rfl⟩ := (hsplits _ _ runs).rmc _ (next ▸ List.mem_cons_self)
      exact ⟨rfl, by simp [SessionCommand.map, addressed, hne]⟩
  | @dataForwarded session' split sessionData data rest runs =>
    refine internal rfl .idle (pending_relays runs ?_ ?_)
    · cases data with
      | aleph data | rmc data => exact .idle
    · exact fun _ => ⟨rfl, rfl⟩
  | receiverDropped endpoint runs =>
    refine internal rfl .idle (pending_relays runs ?_ ?_)
    · cases endpoint with
      | alephCmd | rmcCmd | dataStore | rmcData => exact .idle
    · exact fun _ => ⟨rfl, rfl⟩

end Sends

section Receives
variable {PeerId A S Aleph Rmc E : Type} [DecidableEq PeerId]

def arrivals (part : NetworkData Aleph Rmc → Option E) (peer : PeerId)
    (arrived : List (PeerId × NetworkData Aleph Rmc)) : List E :=
  arrived.filterMap (fun (origin, data) => if origin = peer then part data else none)

variable [PeerIdBytes PeerId] [SignatureScheme A S] [Codec NodeIndex] [Codec S] [Codec Aleph]
  [Codec Rmc] {node node' : TransportNode PeerId A S Aleph Rmc} {event : Event PeerId A S Aleph Rmc}
  {part : NetworkData Aleph Rmc → Option E} {session : SessionId} {peer : PeerId}

private theorem message_relay {task' : ConsensusNetwork.Task PeerId A S (NetworkData Aleph Rmc)}
    {remote : PeerId} {protocol : String} {raw : List UInt8}
    (hstep : ConsensusNetwork.Step node.task (.message remote protocol raw) task') :
    Relays (arrivals part peer (node.arrived session))
      ((ConsensusNetwork.read node.task.network.protocol peer
        (.message remote protocol raw : ConsensusNetwork.Event PeerId A S
          (NetworkData Aleph Rmc))).filterMap (payload PeerId S part session))
      []
      (arrivals part peer
        (node.recordArrivals task'.network (.message remote protocol raw) session)) := by
  by_cases hnew : userData task'.network session <+: userData node.task.network session
  · simp only [recordArrivals, List.drop_eq_nil_of_le hnew.length_le, List.map_nil,
      List.append_nil]
    exact Relays.idle.enters_mono (List.nil_sublist _)
  · obtain ⟨_, _, data, rest, hevent, hdecode, _, hadded⟩ := handed_data hstep hnew
    cases hevent
    simp only [recordArrivals, hadded, List.drop_left, arrivals, List.filterMap_append]
    apply (Relays.enter _ _).enters_mono
    have hpayload : payload PeerId S part session raw = part data := by
      rw [payload, hdecode]
      exact if_pos rfl
    by_cases hremote : remote = peer
    · simp [ConsensusNetwork.read, ConsensusNetwork.heard, hremote, List.filterMap_cons, hpayload]
    · simp [hremote]

omit [PeerIdBytes PeerId] [SignatureScheme A S] [Codec NodeIndex] [Codec S] [Codec Aleph]
  [Codec Rmc] in
theorem cameFrom_append (forwarded more : List (Option PeerId × NetworkData Aleph Rmc)) :
    cameFrom part peer (forwarded ++ more) = cameFrom part peer forwarded ++ cameFrom part peer more :=
  List.filterMap_append

omit [PeerIdBytes PeerId] [SignatureScheme A S] [Codec NodeIndex] [Codec S] [Codec Aleph]
  [Codec Rmc] in
private theorem cameFrom_added (split : SplitNetwork PeerId S Aleph Rmc) (origin : PeerId)
    (data : NetworkData Aleph Rmc) :
    (cameFrom part peer ((split.added (split.forwardData data)).map (some origin, ·))).Sublist
      (if origin = peer then part data else none).toList := by
  have hadded : (cameFrom part peer
      ((split.added (split.forwardData data)).map (some origin, ·))).Sublist
        (cameFrom part peer [(some origin, data)]) :=
    ((split.added_forwardData_sublist data).map (some origin, ·)).filterMap _
  have hone : cameFrom part peer [(some origin, data)] =
      (if origin = peer then part data else none).toList := by
    by_cases horigin : origin = peer
    · cases hdata : part data <;> simp [cameFrom, horigin, hdata]
    · simp [cameFrom, horigin]
  rw [← hone]
  exact hadded

/-- What a node gets of a session goes from the notification in hand to the channels behind
`forward_data`. -/
theorem arrived_relay (part : NetworkData Aleph Rmc → Option E) (peer : PeerId)
    (session : SessionId) (haligned : Aligned node) (hstep : Step node event node') :
    ∃ leaves, cameFrom part peer (node'.forwarded session) =
        cameFrom part peer (node.forwarded session) ++ leaves ∧
      Relays (arrivals part peer (node.arrived session))
        ((read node.task.network.protocol peer event).filterMap (payload PeerId S part session))
        leaves (arrivals part peer (node'.arrived session)) := by
  cases hstep with
  | @network event _ outside step =>
    refine ⟨[], (List.append_nil _).symm, ?_⟩
    cases event with
    | message remote protocol raw => exact message_relay step
    | sessionStarted session' keychain =>
      apply Relays.lost
      by_cases hsession : session = session'
      · simp [recordArrivals, hsession, arrivals]
      · simp [recordArrivals, hsession]
    | _ => exact .idle
  | @dataForwarded session' split sessionData data rest runs known alive next =>
    by_cases hsession : session' = session
    · subst hsession
      have hdata := haligned session' sessionData known
      rw [next] at hdata
      obtain ⟨⟨origin, received⟩, later, harrived, rfl, _⟩ := List.map_eq_cons_iff.mp hdata.symm
      have htaken := relays_taken (f := fun (origin, data) => if origin = peer then part data else none)
        (origin, received) later
      simp only [Function.update_self, harrived, List.tail_cons, List.head?_cons, Option.map_some,
        cameFrom_append]
      exact ⟨_, rfl, Relays.leaves_mono htaken (cameFrom_added split origin received)⟩
    · simp only [Function.update_of_ne (Ne.symm hsession)]
      exact ⟨[], (List.append_nil _).symm, .idle⟩
  | _ => exact ⟨[], (List.append_nil _).symm, .idle⟩

end Receives
end TransportNode

end AlephNode
