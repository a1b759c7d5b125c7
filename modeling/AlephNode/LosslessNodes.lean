import AlephNode.LosslessStages
import AlephNode.PeerHandshakes
import AlephNode.SessionRelays

/-!
# Nodes that lose nothing

A node sends the data of a session to the peer that stands for the addressed node, and hands
what comes from an authenticated peer to the user of the session. As long as the peer keeps
standing for its node, and the user of the session stays, neither of them loses anything.
-/
namespace AlephNode

namespace ConsensusNetwork
variable {PeerId A S D : Type} [DecidableEq PeerId] [PeerIdBytes PeerId] [SignatureScheme A S]
  [Codec NodeIndex] [Codec S] [Codec D] {task task' : Task PeerId A S D} {event : Event PeerId A S D}
  {peer : PeerId} {session : SessionId} {node : NodeIndex}

/-- The peer stands for the node, and nobody else is recorded as it. -/
structure StandsAlone (peer : PeerId) (session : SessionId) (node : NodeIndex)
    (task : Task PeerId A S D) : Prop where
  stands : task.network.peers.get session node = some peer
  alone : ∀ remote, task.network.peers.nodeOf remote session = some node → remote = peer

/-- The stream of the peer does not close, and nobody else proves to be the node. -/
def LeavesAlone (peer : PeerId) (session : SessionId) (node : NodeIndex) (task : Task PeerId A S D)
    (event : Event PeerId A S D) : Prop :=
  event ≠ .streamClosed peer task.network.protocol ∧
    ∀ remote, Causes task.network event (.authenticated remote session node) → remote = peer

theorem StandsAlone.step (h : StandsAlone peer session node task)
    (hleaves : LeavesAlone peer session node task event) (hstep : Step task event task') :
    StandsAlone peer session node task' := by
  rcases step_peers hstep with ⟨peerEvent, hcauses, hpeers⟩ | ⟨-, hpeers⟩
  · have hproves := hleaves.2
    constructor
    · rw [hpeers]
      cases peerEvent with
      | connected remote => exact h.stands
      | authenticated remote session' node' =>
        rw [Peers.handle, Peers.get_authenticate]
        split
        · next hsame =>
          obtain ⟨rfl, rfl⟩ := hsame
          rw [hproves remote hcauses]
        · exact h.stands
      | disconnected remote =>
        rw [Peers.handle, Peers.get_remove, if_neg]
        · exact h.stands
        · intro hnode
          obtain rfl := h.alone remote hnode
          cases hcauses
          exact hleaves.1 rfl
    · intro other hother
      rw [hpeers] at hother
      cases peerEvent with
      | connected remote =>
        rw [Peers.handle, Peers.nodeOf_insert] at hother
        split at hother
        · cases hother
        · exact h.alone other hother
      | authenticated remote session' node' =>
        rw [Peers.handle, Peers.nodeOf_authenticate] at hother
        split at hother
        · next hsame =>
          obtain ⟨rfl, rfl⟩ := hsame
          cases hother
          exact hproves other hcauses
        · exact h.alone other hother
      | disconnected remote =>
        rw [Peers.handle, Peers.nodeOf_remove] at hother
        split at hother
        · cases hother
        · exact h.alone other hother
  · exact ⟨hpeers ▸ h.stands, hpeers ▸ h.alone⟩

structure Serves (task : Task PeerId A S D) : Prop where
  running : task.loop ≠ .ended
  alive : task.network.commands.receiverAlive = true

theorem Serves.step (h : Serves task) (hends : event ≠ .networkStreamEnded)
    (hstep : Step task event task') : Serves task' := by
  have hrunning : task'.loop ≠ .ended := by
    cases hstep with
    | networkStreamEnded => exact absurd rfl hends
    | sessionStarted | authenticationQueued | dataQueued | dataNetworkDropped => exact h.running
    | _ => simp
  exact ⟨hrunning, commands_alive_step (fun _ => h.alive) hstep hrunning⟩

/-- The remote is authenticated in the session, and the user of the session gets its data. -/
structure Receives (remote : PeerId) (session : SessionId) (task : Task PeerId A S D) : Prop where
  authenticated : task.network.peers.isAuthenticated remote session = true
  user : ∃ sessionData, task.network.sessions.lookup session = some sessionData ∧
    sessionData.status = .inProgress ∧ sessionData.dataForUser.receiverAlive = true

/-- The stream of the remote stays as it is, and the session with its user does. -/
structure LeavesUser (remote : PeerId) (session : SessionId) (task : Task PeerId A S D)
    (event : Event PeerId A S D) : Prop where
  stream : ¬Reopens task.network.protocol remote event
  started : ∀ keychain, event ≠ .sessionStarted session keychain
  user : event ≠ .dataNetworkDropped session

theorem Receives.step {remote : PeerId} (h : Receives remote session task)
    (hleaves : LeavesUser remote session task event) (hstep : Step task event task') :
    Receives remote session task' := by
  constructor
  · have hbefore := h.authenticated
    rw [Peers.isAuthenticated_eq] at hbefore ⊢
    rcases step_peers hstep with ⟨peerEvent, hcauses, hpeers⟩ | ⟨-, hpeers⟩
    · rw [hpeers]
      cases hcauses with
      | @connected other =>
        have hne : remote ≠ other := by
          rintro rfl
          exact hleaves.stream ⟨rfl, rfl⟩
        simpa [Peers.handle, Peers.nodeOf_insert, hne] using hbefore
      | @disconnected other =>
        have hne : remote ≠ other := by
          rintro rfl
          exact hleaves.stream ⟨rfl, rfl⟩
        simpa [Peers.handle, Peers.nodeOf_remove, hne] using hbefore
      | authenticated =>
        rw [Peers.handle, Peers.nodeOf_authenticate]
        split
        · rfl
        · exact hbefore
    · rwa [hpeers]
  · obtain ⟨sessionData, hlookup, hstatus, halive⟩ := h.user
    have hchanges := session_changes hstep session
    rw [hlookup] at hchanges
    generalize task'.network.sessions.lookup session = after at hchanges
    cases hchanges with
    | unchanged => exact ⟨sessionData, rfl, hstatus, halive⟩
    | started keychain starts => exact absurd starts (hleaves.started keychain)
    | handed =>
      refine ⟨_, rfl, ?_⟩
      rw [sendToUser_alive halive]
      exact ⟨hstatus, rfl⟩
    | dropped drops => exact absurd drops hleaves.user
    | removed _ terminated =>
      rw [hstatus] at terminated
      cases terminated

theorem Receives.handed {remote : PeerId} {raw rest : List UInt8} {data : D}
    (h : Receives remote session task)
    (hdecode : Codec.decode raw = some ((.ofData session data : InternalMessage PeerId S D), rest))
    (hstep : Step task (.message remote task.network.protocol raw) task') :
    userData task'.network session = userData task.network session ++ [data] := by
  obtain ⟨sessionData, hlookup, hstatus, halive⟩ := h.user
  have hread := message_step rfl hstep
  simp only [onIncomingMessage, hdecode, h.authenticated, if_true, Except.ok.injEq] at hread
  rw [← hread]
  simp only [onIncomingData, hlookup, hstatus, if_true, userData, FiniteMap.lookup_insert,
    Option.elim_some, sendToUser_alive halive]

end ConsensusNetwork

namespace TransportNode
open ConsensusNetwork (queue_cases userData StandsAlone LeavesAlone Serves Receives LeavesUser
  mem_sentTo)
open Transport (Reaches)

section Sender
variable {PeerId A S D E : Type} [DecidableEq PeerId] [PeerIdBytes PeerId] [SignatureScheme A S]
  [Codec NodeIndex] [Codec S] [Codec D] {task task' : ConsensusNetwork.Task PeerId A S D}
  {event : ConsensusNetwork.Event PeerId A S D} {part : D → Option E} {session : SessionId}
  {node : NodeIndex} {peer : PeerId}

omit [SignatureScheme A S] in
theorem sends_addressed {net : ConsensusNetwork PeerId A S D} {peerOrder : List PeerId}
    {nodeOrder : List NodeIndex} {command : SessionCommand PeerId S D}
    (hstands : net.peers.get session node = some peer)
    (henumerates : ∀ session nodes, net.peers.toPeer.lookup session = some nodes →
      (∃ data recipient, command = .ofData session data recipient) →
      Enumerates nodeOrder nodes.keys)
    (hdata : ∀ data : D, Codec.decode (Codec.encode data) = some (data, [])) :
    (addressed part session node command).toList.length ≤
      ((sentTo peer (net.onCommand peerOrder nodeOrder command)).filterMap
        (payload PeerId S part session)).length := by
  cases haddressed : addressed part session node command with
  | none => exact Nat.zero_le _
  | some e =>
    cases command with
    | ofMeta => cases haddressed
    | ofData session' data recipient =>
      simp only [addressed] at haddressed
      split at haddressed
      · next hsame =>
        obtain ⟨rfl, hreaches⟩ := hsame
        obtain ⟨nodes, hnodes, hnode⟩ := Option.bind_eq_some_iff.mp hstands
        have hcall : (net.sendMessage (.ofData session' data) peer) ∈
            net.onCommand peerOrder nodeOrder (.ofData session' data recipient) := by
          cases recipient with
          | all =>
            have hkeys := (henumerates session' nodes hnodes ⟨data, .all, rfl⟩).2 node
            have hmem := hkeys.mpr (Finmap.mem_keys.mpr (Finmap.mem_of_lookup_eq_some hnode))
            apply List.mem_map_of_mem
            simp only [Peers.peersAuthenticatedFor, hnodes, List.mem_filterMap]
            exact ⟨node, hmem, hnode⟩
          | target node' =>
            obtain rfl : node' = node := hreaches
            simp only [ConsensusNetwork.onCommand, hstands, List.mem_singleton]
        have hsent := mem_sentTo.mpr ⟨_, hcall⟩
        have hpayload : e ∈ (sentTo peer (net.onCommand peerOrder nodeOrder
            (.ofData session' data recipient))).filterMap (payload PeerId S part session') := by
          apply List.mem_filterMap.mpr
          refine ⟨_, hsent, ?_⟩
          rw [payload_ofData (hdata data), if_pos rfl]
          exact haddressed
        exact List.length_pos_of_mem hpayload
      · cases haddressed

/-- The queue of the consensus network loses nothing that is addressed to the node. -/
theorem commands_retain (part : D → Option E) (hstep : ConsensusNetwork.Step task event task')
    (hdata : ∀ data : D, Codec.decode (Codec.encode data) = some (data, []))
    (hstands : task.network.peers.get session node = some peer)
    (halive : task.network.commands.receiverAlive = true) :
    Retains (task.network.commands.messages.filterMap (addressed part session node))
      (handed part session node event).toList
      ((sentTo peer (task'.calls.drop task.calls.length)).filterMap (payload PeerId S part session))
      (task'.network.commands.messages.filterMap (addressed part session node)) := by
  rcases queue_cases hstep with ⟨later, new, hlater, -, hcalls, hnone⟩ |
    ⟨command, _, _, rfl, hnext, -, henumerates, hcalls⟩
  · have hsent : sentTo peer new = [] := by
      rw [List.eq_nil_iff_forall_not_mem]
      intro raw hraw
      obtain ⟨protocol, hcall⟩ := mem_sentTo.mp hraw
      exact hnone _ _ _ hcall
    rw [hcalls, List.drop_left, hsent, List.filterMap_nil]
    cases event with
    | dataQueued session' data recipient =>
      cases hstep
      exact .sent halive (.ofData session' data recipient)
    | _ =>
      rw [hlater]
      exact .grown (Nat.zero_le _)
  · rw [hcalls, List.drop_left]
    exact .taken hnext (sends_addressed hstands henumerates hdata)

end Sender

section Sends
variable {PeerId A S Aleph Rmc E : Type} {part : NetworkData Aleph Rmc → Option E}
  {session session' : SessionId} {index : NodeIndex} {split split' : SplitNetwork PeerId S Aleph Rmc}
  {splits : FiniteMap SessionId (SplitNetwork PeerId S Aleph Rmc)} {enters leaves : List E}

/-- The forwarders of the session take what its components send. -/
def Forwards (session : SessionId) (splits : FiniteMap SessionId (SplitNetwork PeerId S Aleph Rmc)) :
    Prop :=
  ∃ split, splits.lookup session = some split ∧ split.alephCmd.receiverAlive = true ∧
    split.rmcCmd.receiverAlive = true

/-- A move of one session retains what it does for this session, and nothing for others. -/
theorem pending_retain (hlookup : splits.lookup session' = some split)
    (hsame : session' = session → Retains (pendingIn part session index split) enters leaves
      (pendingIn part session index split'))
    (hother : session' ≠ session → enters = [] ∧ leaves = []) :
    Retains (pending part session index splits) enters leaves
      (pending part session index (splits.insert session' split')) := by
  by_cases hsession : session' = session
  · subst hsession
    rw [pending_of_lookup hlookup, pending_insert_self]
    exact hsame rfl
  · obtain ⟨rfl, rfl⟩ := hother hsession
    rw [pending_insert_ne hsession]
    exact .idle

theorem alephSend_retains (hsplit : split.OfSession session')
    (halive : split.alephCmd.receiverAlive = true) (data : Aleph) (recipient : BftRecipient) :
    Retains (pendingIn part session index split)
      (addressed (fun data => part (.aleph data)) session index
        (.ofData session' data (.ofBft recipient) : SessionCommand PeerId S Aleph)).toList []
      (pendingIn part session index (split.alephSend data recipient)) := by
  rw [← hsplit.sessionId_eq]
  exact (Retains.sent halive _).beside _

theorem rmcSend_retains {data : Rmc} {recipient : Recipient NodeIndex}
    (hsplit : split.OfSession session') (halive : split.rmcCmd.receiverAlive = true)
    (hsend : split.rmcSend data recipient = .ok split') :
    Retains (pendingIn part session index split)
      (addressed (fun data => part (.rmc data)) session index
        (.ofData session' data recipient : SessionCommand PeerId S Rmc)).toList []
      (pendingIn part session index split') := by
  rw [rmcSend_eq hsend, ← hsplit.sessionId_eq]
  exact (Retains.sent halive _).beside' _

theorem alephCmdRest_retains {command : SessionCommand PeerId S Aleph}
    {rest : List (SessionCommand PeerId S Aleph)}
    (hnext : split.alephCmd.messages = command :: rest) :
    Retains (pendingIn part session index split) []
      (addressed part session index (command.map .aleph)).toList
      (pendingIn part session index { split with alephCmd := split.alephCmd.rest }) := by
  simp only [pendingIn, Mpsc.rest, addressed_map, hnext, List.tail_cons]
  exact (Retains.taken rfl (Nat.le_refl _)).beside _

theorem rmcCmdRest_retains {command : SessionCommand PeerId S Rmc}
    {rest : List (SessionCommand PeerId S Rmc)}
    (hnext : split.rmcCmd.messages = command :: rest) :
    Retains (pendingIn part session index split) []
      (addressed part session index (command.map .rmc)).toList
      (pendingIn part session index { split with rmcCmd := split.rmcCmd.rest }) := by
  simp only [pendingIn, Mpsc.rest, addressed_map, hnext, List.tail_cons]
  exact (Retains.taken rfl (Nat.le_refl _)).beside' _

theorem Forwards.alive (h : Forwards session splits) (hlookup : splits.lookup session = some split) :
    split.alephCmd.receiverAlive = true ∧ split.rmcCmd.receiverAlive = true := by
  rcases h with ⟨split', hlookup', halive⟩
  rw [hlookup, Option.some.injEq] at hlookup'
  rwa [hlookup']

variable [DecidableEq PeerId] [PeerIdBytes PeerId] [SignatureScheme A S] [Codec NodeIndex]
  [Codec S] [Codec Aleph] [Codec Rmc] {node node' : TransportNode PeerId A S Aleph Rmc}
  {event : Event PeerId A S Aleph Rmc} {peer : PeerId}

theorem Forwards.step (h : Forwards session node.splits) (hstep : Step node event node')
    (hkeeps : event ≠ .receiverDropped session .alephCmd ∧
      event ≠ .receiverDropped session .rmcCmd) : Forwards session node'.splits := by
  have hinsert : ∀ {session' split'}, (session' = session → split'.alephCmd.receiverAlive = true ∧
      split'.rmcCmd.receiverAlive = true) → Forwards session (node.splits.insert session' split') := by
    intro session' split' halive
    by_cases hsession : session = session'
    · subst hsession
      exact ⟨split', Finmap.lookup_insert _, halive rfl⟩
    · rcases h with ⟨split, hlookup, hbefore⟩
      refine ⟨split, ?_, hbefore⟩
      rw [FiniteMap.lookup_insert, if_neg hsession]
      exact hlookup
  cases hstep with
  | @network event _ outside step =>
    cases event with
    | sessionStarted session' keychain =>
      apply hinsert
      intro _
      exact ⟨rfl, rfl⟩
    | _ => exact h
  | alephSent data recipient runs =>
    apply hinsert
    rintro rfl
    simpa [SplitNetwork.alephSend] using h.alive runs
  | rmcSent runs sends =>
    apply hinsert
    rintro rfl
    simpa [rmcSend_eq sends] using h.alive runs
  | alephCmdForwarded runs next | rmcCmdForwarded runs next =>
    apply hinsert
    rintro rfl
    have halive := h.alive runs
    exact halive
  | @dataForwarded _ _ _ data _ runs =>
    apply hinsert
    rintro rfl
    have halive := h.alive runs
    cases data with
    | aleph | rmc => exact halive
  | receiverDropped endpoint runs =>
    apply hinsert
    rintro rfl
    have halive := h.alive runs
    cases endpoint with
    | alephCmd => exact absurd rfl hkeeps.1
    | rmcCmd => exact absurd rfl hkeeps.2
    | dataStore | rmcData => exact halive

omit [SignatureScheme A S] in
private theorem internal_retains {index : NodeIndex} {enters middle : List E}
    (hcalls : node'.task.calls = node.task.calls)
    (hcommands : Retains
      (node.task.network.commands.messages.filterMap (addressed part session index)) middle []
      (node'.task.network.commands.messages.filterMap (addressed part session index)))
    (hpending : Retains (pending part session index node.splits) enters middle
      (pending part session index node'.splits)) :
    Retains (queued part session index node) enters
      ((outgoing peer node node').filterMap (payload PeerId S part session))
      (queued part session index node') := by
  rw [outgoing, hcalls, List.drop_length]
  exact Retains.comp hcommands hpending

/-- What a node sends of a session goes from the handles to the link, and none is lost. -/
theorem queued_retain {index : SessionId → NodeIndex} (part : NetworkData Aleph Rmc → Option E)
    (hdata : ∀ data : NetworkData Aleph Rmc, Codec.decode (Codec.encode data) = some (data, []))
    (hsplits : SplitsSound node.splits) (hforwards : Forwards session node.splits)
    (hserves : Serves node.task) (hstands : StandsAlone peer session (index session) node.task)
    (hstep : Step node event node') :
    Retains (queued part session (index session) node)
      (Transport.sent part session (index session) (.a event)).toList
      ((outgoing peer node node').filterMap (payload PeerId S part session))
      (queued part session (index session) node') := by
  cases hstep with
  | @network event _ outside step =>
    have hcommands := commands_retain part step hdata hstands.stands hserves.alive
    have hhanded : handed part session (index session) event = none := by
      cases event with
      | dataQueued => exact outside.elim
      | _ => rfl
    rw [hhanded] at hcommands
    apply Retains.comp hcommands
    rw [pending_network outside]
    exact .idle
  | alephSent data recipient runs =>
    refine internal_retains rfl .idle (pending_retain runs ?_ ?_)
    · rintro rfl
      exact alephSend_retains (hsplits _ _ runs) (hforwards.alive runs).1 data recipient
    · intro hne
      exact ⟨by simp [Transport.sent, hne], rfl⟩
  | rmcSent runs sends =>
    refine internal_retains rfl .idle (pending_retain runs ?_ ?_)
    · rintro rfl
      exact rmcSend_retains (hsplits _ _ runs) (hforwards.alive runs).2 sends
    · intro hne
      exact ⟨by simp [Transport.sent, hne], rfl⟩
  | @alephCmdForwarded _ _ command _ runs next =>
    refine internal_retains rfl (.sent hserves.alive (command.map .aleph)) (pending_retain runs ?_ ?_)
    · exact fun _ => alephCmdRest_retains next
    · intro hne
      obtain ⟨data, recipient, rfl⟩ := (hsplits _ _ runs).aleph _ (next ▸ List.mem_cons_self)
      exact ⟨rfl, by simp [SessionCommand.map, addressed, hne]⟩
  | @rmcCmdForwarded _ _ command _ runs next =>
    refine internal_retains rfl (.sent hserves.alive (command.map .rmc)) (pending_retain runs ?_ ?_)
    · exact fun _ => rmcCmdRest_retains next
    · intro hne
      obtain ⟨data, recipient, rfl⟩ := (hsplits _ _ runs).rmc _ (next ▸ List.mem_cons_self)
      exact ⟨rfl, by simp [SessionCommand.map, addressed, hne]⟩
  | @dataForwarded _ _ _ data _ runs =>
    refine internal_retains rfl .idle (pending_retain runs ?_ ?_)
    · intro _
      cases data with
      | aleph data | rmc data => exact .idle
    · exact fun _ => ⟨rfl, rfl⟩
  | receiverDropped endpoint runs =>
    refine internal_retains rfl .idle (pending_retain runs ?_ ?_)
    · intro _
      cases endpoint with
      | alephCmd | rmcCmd | dataStore | rmcData => exact .idle
    · exact fun _ => ⟨rfl, rfl⟩

end Sends

section Arrivals
variable {PeerId A S Aleph Rmc E : Type} {node node' : TransportNode PeerId A S Aleph Rmc}
  {session : SessionId}

/-- The session has its split network, and the receivers of its data exist. -/
def Hears (session : SessionId) (node : TransportNode PeerId A S Aleph Rmc) : Prop :=
  ∃ split, node.splits.lookup session = some split ∧ split.dataStore.receiverAlive = true ∧
    split.rmcData.receiverAlive = true

theorem Hears.not_started (h : Hears session node)
    {event : ConsensusNetwork.Event PeerId A S (NetworkData Aleph Rmc)} (houtside : node.Outside event)
    (keychain : KeyBox A) : event ≠ .sessionStarted session keychain := by
  rintro rfl
  have hnone : node.splits.lookup session = none := houtside
  rcases h with ⟨split, hlookup, -⟩
  rw [hnone] at hlookup
  cases hlookup

variable [DecidableEq PeerId] [PeerIdBytes PeerId] [SignatureScheme A S] [Codec NodeIndex]
  [Codec S] [Codec Aleph] [Codec Rmc] {event : Event PeerId A S Aleph Rmc} {peer : PeerId}

/-- The receivers of the data of the session exist until they are dropped. -/
theorem Hears.step (h : Hears session node)
    (hdrops : event ≠ .receiverDropped session .dataStore ∧ event ≠ .receiverDropped session .rmcData)
    (hstep : Step node event node') : Hears session node' := by
  rcases h with ⟨split, hlookup, hstore, hrmc⟩
  have hinsert : ∀ session' split₀ split', node.splits.lookup session' = some split₀ →
      (session' = session → split₀.dataStore.receiverAlive = true → split₀.rmcData.receiverAlive = true →
        split'.dataStore.receiverAlive = true ∧ split'.rmcData.receiverAlive = true) →
      ∃ split, (node.splits.insert session' split').lookup session = some split ∧
        split.dataStore.receiverAlive = true ∧ split.rmcData.receiverAlive = true := by
    intro session' split₀ split' hbefore halive
    rw [FiniteMap.lookup_insert]
    split
    · next hsame =>
      subst hsame
      rw [hlookup, Option.some.injEq] at hbefore
      subst hbefore
      exact ⟨split', rfl, halive rfl hstore hrmc⟩
    · exact ⟨split, hlookup, hstore, hrmc⟩
  cases hstep with
  | @network event _ outside step =>
    cases event with
    | sessionStarted session' keychain =>
      refine ⟨split, ?_, hstore, hrmc⟩
      have hne : session ≠ session' := by
        rintro rfl
        have hnone : node.splits.lookup session = none := outside
        rw [hnone] at hlookup
        cases hlookup
      rw [splitStarted, FiniteMap.lookup_insert, if_neg hne]
      exact hlookup
    | _ => exact ⟨split, hlookup, hstore, hrmc⟩
  | alephSent data recipient runs => exact hinsert _ _ _ runs (fun _ hs hr => ⟨hs, hr⟩)
  | rmcSent runs sends =>
    rw [rmcSend_eq sends]
    exact hinsert _ _ _ runs (fun _ hs hr => ⟨hs, hr⟩)
  | alephCmdForwarded runs next => exact hinsert _ _ _ runs (fun _ hs hr => ⟨hs, hr⟩)
  | rmcCmdForwarded runs next => exact hinsert _ _ _ runs (fun _ hs hr => ⟨hs, hr⟩)
  | @dataForwarded _ _ _ data _ runs =>
    apply hinsert _ _ _ runs
    intro _ hs hr
    cases data with
    | aleph data => exact ⟨(Mpsc.trySend_receiverAlive _ _).trans hs, hr⟩
    | rmc data => exact ⟨hs, (Mpsc.trySend_receiverAlive _ _).trans hr⟩
  | receiverDropped endpoint runs =>
    apply hinsert _ _ _ runs
    rintro rfl hs hr
    cases endpoint with
    | alephCmd | rmcCmd => exact ⟨hs, hr⟩
    | dataStore => exact absurd rfl hdrops.1
    | rmcData => exact absurd rfl hdrops.2

private theorem message_retain {task' : ConsensusNetwork.Task PeerId A S (NetworkData Aleph Rmc)}
    {remote : PeerId} {protocol : String} {raw : List UInt8} (part : NetworkData Aleph Rmc → Option E)
    (hreceives : Receives peer session node.task)
    (hstep : ConsensusNetwork.Step node.task (.message remote protocol raw) task') :
    Retains (arrivals part peer (node.arrived session))
      ((ConsensusNetwork.read node.task.network.protocol peer
        (.message remote protocol raw : ConsensusNetwork.Event PeerId A S
          (NetworkData Aleph Rmc))).filterMap (payload PeerId S part session))
      []
      (arrivals part peer
        (node.recordArrivals task'.network (.message remote protocol raw) session)) := by
  apply Retains.grown
  simp only [ConsensusNetwork.read, ConsensusNetwork.heard]
  split
  · next hremote =>
    subst hremote
    by_cases hprotocol : protocol = node.task.network.protocol
    · subst hprotocol
      cases hpayload : payload PeerId S part session raw with
      | none => simp [hpayload]
      | some e =>
        unfold payload at hpayload
        split at hpayload
        · next session' data rest hdecode =>
          split at hpayload
          · next hsession =>
            subst hsession
            have hhanded := hreceives.handed hdecode hstep
            simp [hhanded, payload, hdecode, hpayload]
          · cases hpayload
        · cases hpayload
    · simp [hprotocol]
  · exact Nat.zero_le _

/-- What a node gets of a session arrives, and none is lost before it is put on its channel. -/
theorem arrived_retain (part : NetworkData Aleph Rmc → Option E) (haligned : Aligned node)
    (hreceives : Receives peer session node.task) (hhears : Hears session node)
    (hstep : Step node event node') {leaves : List E}
    (hleaves : cameFrom part peer (node'.forwarded session) =
      cameFrom part peer (node.forwarded session) ++ leaves) :
    Retains (arrivals part peer (node.arrived session))
      ((read node.task.network.protocol peer event).filterMap (payload PeerId S part session))
      leaves (arrivals part peer (node'.arrived session)) := by
  have hnothing : node'.forwarded session = node.forwarded session → leaves = [] := by
    intro hsame
    rw [hsame] at hleaves
    exact List.self_eq_append_right.mp hleaves
  cases hstep with
  | @network event _ outside step =>
    rw [hnothing rfl]
    cases event with
    | message remote protocol raw => exact message_retain part hreceives step
    | sessionStarted session' keychain =>
      have hne : session ≠ session' := by
        rintro rfl
        exact hhears.not_started outside keychain rfl
      simp only [recordArrivals, Function.update_of_ne hne]
      exact .idle
    | _ => exact .idle
  | @dataForwarded session' split sessionData data rest runs known alive next =>
    by_cases hsession : session' = session
    · subst hsession
      have hdata := haligned session' sessionData known
      rw [next] at hdata
      rcases List.map_eq_cons_iff.mp hdata.symm with ⟨⟨origin, received⟩, later, harrived, rfl, -⟩
      rcases hhears with ⟨split', hlookup, hstore, hrmc⟩
      rw [runs, Option.some.injEq] at hlookup
      subst hlookup
      simp only [Function.update_self, harrived, List.tail_cons, List.head?_cons, Option.map_some,
        split.added_forwardData_alive hstore hrmc, cameFrom_append, List.append_cancel_left_eq]
        at hleaves ⊢
      apply Retains.taken rfl
      rw [← hleaves]
      by_cases horigin : origin = peer
      · cases hpart : part received <;> simp [cameFrom, horigin, hpart]
      · simp [horigin]
    · have hkept : Function.update node.arrived session' (node.arrived session').tail session =
          node.arrived session := Function.update_of_ne (Ne.symm hsession) _ _
      rw [hnothing (Function.update_of_ne (Ne.symm hsession) _ _)]
      simp only [hkept]
      exact .idle
  | _ =>
    rw [hnothing rfl]
    exact .idle

end Arrivals

section Moves
variable {PeerId A S Aleph Rmc : Type} [DecidableEq PeerId] [PeerIdBytes PeerId]
  [SignatureScheme A S] [Codec NodeIndex] [Codec S] [Codec Aleph] [Codec Rmc]
  {task task' : ConsensusNetwork.Task PeerId A S (NetworkData Aleph Rmc)}
  {event : Event PeerId A S Aleph Rmc} {session : SessionId} {node : NodeIndex} {peer : PeerId}

/-- A node that serves goes on sending to the peer what is meant for the node. -/
theorem TaskMove.keeps_sending (h : TaskMove task event task') (hserves : Serves task)
    (hstands : StandsAlone peer session node task)
    (hleaves : ∀ e, event = .network e → LeavesAlone peer session node task e ∧
      e ≠ .networkStreamEnded) : Serves task' ∧ StandsAlone peer session node task' := by
  cases h with
  | network step =>
    rcases hleaves _ rfl with ⟨halone, hends⟩
    exact ⟨hserves.step hends step, hstands.step halone step⟩
  | @queued _ session' data recipient _ _ step =>
    have halone : LeavesAlone peer session node task (.dataQueued session' data recipient) := by
      constructor
      · simp
      · intro remote hcauses
        cases hcauses
    exact ⟨hserves.step (by simp) step, hstands.step halone step⟩
  | dataTaken => exact ⟨⟨hserves.running, hserves.alive⟩, ⟨hstands.stands, hstands.alone⟩⟩
  | idle => exact ⟨hserves, hstands⟩

/-- A node goes on handing what comes from the peer to the user of the session. -/
theorem TaskMove.keeps_receiving (h : TaskMove task event task') (hreceives : Receives peer session task)
    (hleaves : ∀ e, event = .network e → LeavesUser peer session task e) :
    Receives peer session task' := by
  cases h with
  | network step => exact hreceives.step (hleaves _ rfl) step
  | queued _ step =>
    apply hreceives.step _ step
    constructor
    · exact id
    · simp
    · simp
  | @dataTaken _ session' sessionData rest _ known =>
    refine ⟨hreceives.authenticated, ?_⟩
    rcases hreceives.user with ⟨sessionData', hlookup, hstatus, halive⟩
    by_cases hsession : session = session'
    · subst hsession
      rw [known, Option.some.injEq] at hlookup
      subst hlookup
      exact ⟨_, Finmap.lookup_insert _, hstatus, halive⟩
    · refine ⟨sessionData', ?_, hstatus, halive⟩
      rw [FiniteMap.lookup_insert, if_neg hsession]
      exact hlookup
  | idle => exact hreceives

end Moves
end TransportNode
end AlephNode
