import AlephNode.OwnAnnouncements

/-!
# Invariants of a node with its sessions

The commands in the channels of a split network are data of its session; what waits in a
session is what has been recorded of its arrival; and the own announcements of a node are
not touched by what its sessions do.
-/
namespace AlephNode

/-- The split network belongs to the session, and so do its commands. -/
structure SplitNetwork.OfSession {PeerId S Aleph Rmc : Type} (session : SessionId)
    (split : SplitNetwork PeerId S Aleph Rmc) : Prop where
  sessionId_eq : split.sessionId = session
  aleph : ∀ command ∈ split.alephCmd.messages, ∃ data recipient,
    command = .ofData session data recipient
  rmc : ∀ command ∈ split.rmcCmd.messages, ∃ data recipient,
    command = .ofData session data recipient

/-- The channels of data hold these entries, each the ones of its component. -/
def SplitNetwork.Holds {PeerId S Aleph Rmc : Type} (split : SplitNetwork PeerId S Aleph Rmc)
    (entries : List (Option PeerId × NetworkData Aleph Rmc)) : Prop :=
  split.dataStore.messages = entries.filterMap (fun e => e.2.aleph?) ∧
    split.rmcData.messages = entries.filterMap (fun e => e.2.rmc?)

namespace TransportNode
open ConsensusNetwork (userData session_cases handed_data step_protocol step_localPeerId Announces
  StandsForOwn announcement Says)
variable {PeerId A S Aleph Rmc : Type}

def SplitsSound (splits : FiniteMap SessionId (SplitNetwork PeerId S Aleph Rmc)) : Prop :=
  ∀ session split, splits.lookup session = some split → split.OfSession session

def Aligned (node : TransportNode PeerId A S Aleph Rmc) : Prop :=
  ∀ session sessionData, node.task.network.sessions.lookup session = some sessionData →
    sessionData.dataForUser.messages = (node.arrived session).map Prod.snd

/-- What is recorded of a session is what its channels of data hold. -/
structure Recorded (splits : FiniteMap SessionId (SplitNetwork PeerId S Aleph Rmc))
    (forwarded : SessionId → List (Option PeerId × NetworkData Aleph Rmc)) : Prop where
  unstarted : ∀ session, splits.lookup session = none → forwarded session = []
  channels : ∀ session split, splits.lookup session = some split → split.Holds (forwarded session)

/-- The events that start a session name the index of the session. -/
def StartsOwn (index : SessionId → NodeIndex) (event : Event PeerId A S Aleph Rmc) : Prop :=
  ∀ session keychain, event = .network (.sessionStarted session keychain) →
    keychain.id = index session

/-- What a move of the node does to its consensus network: the move is one of the network,
or a forwarder queues a command, or data that waits in a session is taken, or nothing. -/
inductive TaskMove [DecidableEq PeerId] [PeerIdBytes PeerId] [SignatureScheme A S]
    [Codec NodeIndex] [Codec S] [Codec Aleph] [Codec Rmc]
    (task : ConsensusNetwork.Task PeerId A S (NetworkData Aleph Rmc)) :
    Event PeerId A S Aleph Rmc → ConsensusNetwork.Task PeerId A S (NetworkData Aleph Rmc) → Prop
  | network {event task'} (step : ConsensusNetwork.Step task event task') :
      TaskMove task (.network event) task'
  | queued {event session data recipient task'} (internal : ∀ e, event ≠ .network e)
      (step : ConsensusNetwork.Step task (.dataQueued session data recipient) task') :
      TaskMove task event task'
  | dataTaken {event session sessionData} (rest) (internal : ∀ e, event ≠ .network e)
      (known : task.network.sessions.lookup session = some sessionData) :
      TaskMove task event { task with
        network.sessions := task.network.sessions.insert session { sessionData with
          dataForUser := { sessionData.dataForUser with messages := rest } } }
  | idle {event} (internal : ∀ e, event ≠ .network e) : TaskMove task event task

section Splits
variable {splits : FiniteMap SessionId (SplitNetwork PeerId S Aleph Rmc)} {session : SessionId}
  {split split' : SplitNetwork PeerId S Aleph Rmc}

theorem SplitsSound.insert (h : SplitsSound splits) (hsplit : split.OfSession session) :
    SplitsSound (splits.insert session split) := by
  intro session' split' hlookup
  rw [FiniteMap.lookup_insert] at hlookup
  split at hlookup
  · next hsession =>
    cases hlookup
    rw [hsession]
    exact hsplit
  · exact h session' split' hlookup

theorem ofSession_splitNetwork :
    (SplitNetwork.splitNetwork session : SplitNetwork PeerId S Aleph Rmc).OfSession session where
  sessionId_eq := rfl
  aleph _ h := by simp [SplitNetwork.splitNetwork, Mpsc.unbounded, Channel.unbounded] at h
  rmc _ h := by simp [SplitNetwork.splitNetwork, Mpsc.unbounded, Channel.unbounded] at h

private theorem mem_trySend {α : Type} {c : Mpsc α} {a b : α} (h : b ∈ (c.trySend a).messages) :
    b ∈ c.messages ∨ b = a := by
  obtain ⟨sent, hsent, hsubset⟩ := c.sendAll_messages [a]
  have hmem : b ∈ c.messages ++ sent := hsent ▸ h
  obtain hbefore | hnew := List.mem_append.mp hmem
  · exact .inl hbefore
  · exact .inr (List.mem_singleton.mp (hsubset hnew))

theorem ofSession_alephSend (h : split.OfSession session) (data : Aleph)
    (recipient : BftRecipient) : (split.alephSend data recipient).OfSession session := by
  refine ⟨h.sessionId_eq, ?_, h.rmc⟩
  intro command hcommand
  obtain hbefore | rfl := mem_trySend hcommand
  · exact h.aleph command hbefore
  · exact ⟨data, .ofBft recipient, by rw [h.sessionId_eq]⟩

theorem rmcSend_eq {data : Rmc} {recipient : Recipient NodeIndex}
    (h : split.rmcSend data recipient = .ok split') : split' = { split with
      rmcCmd := split.rmcCmd.trySend (.ofData split.sessionId data recipient) } := by
  cases halive : split.rmcCmd.receiverAlive with
  | true =>
    rw [SplitNetwork.rmcSend_alive halive] at h
    exact (Except.ok.inj h).symm
  | false =>
    rw [SplitNetwork.rmcSend, Mpsc.unboundedSend, Channel.unboundedSend_dropped halive] at h
    cases h

theorem ofSession_rmcSend {data : Rmc} {recipient : Recipient NodeIndex}
    (h : split.OfSession session) (hsend : split.rmcSend data recipient = .ok split') :
    split'.OfSession session := by
  rw [rmcSend_eq hsend]
  refine ⟨h.sessionId_eq, h.aleph, ?_⟩
  intro command hcommand
  obtain hbefore | rfl := mem_trySend hcommand
  · exact h.rmc command hbefore
  · exact ⟨data, recipient, by rw [h.sessionId_eq]⟩

theorem ofSession_dropReceiver (h : split.OfSession session) (endpoint : Endpoint) :
    (dropReceiver split endpoint).OfSession session := by
  cases endpoint with
  | alephCmd | rmcCmd | dataStore | rmcData => exact ⟨h.sessionId_eq, h.aleph, h.rmc⟩

end Splits

section Steps
variable [DecidableEq PeerId] [PeerIdBytes PeerId] [SignatureScheme A S] [Codec NodeIndex]
  [Codec S] [Codec Aleph] [Codec Rmc] {node node' : TransportNode PeerId A S Aleph Rmc}
  {event : Event PeerId A S Aleph Rmc} {index : SessionId → NodeIndex} {peer : PeerId}

theorem splitsSound_step (h : SplitsSound node.splits) (hstep : Step node event node') :
    SplitsSound node'.splits := by
  cases hstep with
  | @network event _ outside step =>
    cases event with
    | sessionStarted session keychain => exact h.insert ofSession_splitNetwork
    | _ => exact h
  | alephSent data recipient runs =>
    exact h.insert (ofSession_alephSend (h _ _ runs) data recipient)
  | rmcSent runs sends => exact h.insert (ofSession_rmcSend (h _ _ runs) sends)
  | alephCmdForwarded runs next =>
    have hsplit := h _ _ runs
    apply h.insert
    exact ⟨hsplit.sessionId_eq, fun c hc => hsplit.aleph c (List.mem_of_mem_tail hc), hsplit.rmc⟩
  | rmcCmdForwarded runs next =>
    have hsplit := h _ _ runs
    apply h.insert
    exact ⟨hsplit.sessionId_eq, hsplit.aleph, fun c hc => hsplit.rmc c (List.mem_of_mem_tail hc)⟩
  | @dataForwarded _ split _ data _ runs =>
    have hsplit := h _ _ runs
    apply h.insert
    cases data with
    | aleph data | rmc data => exact ⟨hsplit.sessionId_eq, hsplit.aleph, hsplit.rmc⟩
  | receiverDropped endpoint runs => exact h.insert (ofSession_dropReceiver (h _ _ runs) endpoint)

omit [DecidableEq PeerId] [PeerIdBytes PeerId] [SignatureScheme A S] [Codec NodeIndex] [Codec S]
  [Codec Aleph] [Codec Rmc] in
theorem aligned_initial {localPeerId : PeerId} {protocol : String} :
    Aligned (.initial localPeerId protocol : TransportNode PeerId A S Aleph Rmc) := by
  intro session sessionData h
  simp [initial, ConsensusNetwork.Task.initial, ConsensusNetwork.new] at h

private theorem waiting_started {task task' : ConsensusNetwork.Task PeerId A S (NetworkData Aleph Rmc)}
    {session : SessionId} {keychain : KeyBox A}
    {sessionData : SessionData PeerId A S (NetworkData Aleph Rmc)}
    (hstep : ConsensusNetwork.Step task (.sessionStarted session keychain) task')
    (hlookup : task'.network.sessions.lookup session = some sessionData) :
    sessionData.dataForUser.messages = [] := by
  cases hstep
  simp only [ConsensusNetwork.startSession, FiniteMap.lookup_insert, if_pos] at hlookup
  cases hlookup
  rfl

private theorem aligned_network {task' : ConsensusNetwork.Task PeerId A S (NetworkData Aleph Rmc)}
    {event : ConsensusNetwork.Event PeerId A S (NetworkData Aleph Rmc)} (h : Aligned node)
    (hstep : ConsensusNetwork.Step node.task event task') :
    Aligned ⟨task', node.splitStarted event, node.recordArrivals task'.network event,
      node.forwarded⟩ := by
  intro session sessionData' hlookup
  have huser' : userData task'.network session = sessionData'.dataForUser.messages := by
    rw [userData, hlookup, Option.elim_some]
  obtain ⟨sessionData, hbefore, _, _, hdata⟩ | ⟨keychain, rfl, _, hempty, _⟩ :=
    session_cases hstep hlookup
  · have haligned := h session sessionData hbefore
    have huser : userData node.task.network session = sessionData.dataForUser.messages := by
      rw [userData, hbefore, Option.elim_some]
    obtain hsame | ⟨remote, raw, data, _, rfl, _, hadded⟩ := hdata
    · cases event with
      | message remote protocol raw =>
        simp only [recordArrivals, huser, huser', hsame, List.drop_length, List.map_nil,
          List.append_nil]
        exact haligned
      | sessionStarted session' keychain =>
        by_cases hsession : session = session'
        · subst hsession
          simp [recordArrivals, waiting_started hstep hlookup]
        · rw [hsame, haligned]
          simp only [recordArrivals, Function.update_of_ne hsession]
      | _ => exact hsame.trans haligned
    · simp only [recordArrivals, huser, huser', hadded, List.drop_left, List.map_append,
        haligned, List.map_cons, List.map_nil]
  · simp [recordArrivals, hempty]

theorem aligned_step (h : Aligned node) (hstep : Step node event node') : Aligned node' := by
  cases hstep with
  | network outside step => exact aligned_network h step
  | @dataForwarded session split sessionData data rest runs known alive next =>
    intro session' sessionData' hlookup
    rw [FiniteMap.lookup_insert] at hlookup
    split at hlookup
    · next hsession =>
      cases hlookup
      have haligned := h session sessionData known
      rw [next] at haligned
      simp only [hsession, Function.update_self, List.map_tail, ← haligned, List.tail_cons]
    · next hsession =>
      simp only [Function.update_of_ne hsession]
      exact h session' sessionData' hlookup
  | _ => exact h

section Recorded
variable {splits : FiniteMap SessionId (SplitNetwork PeerId S Aleph Rmc)}
  {forwarded : SessionId → List (Option PeerId × NetworkData Aleph Rmc)}
  {split' : SplitNetwork PeerId S Aleph Rmc}

omit [DecidableEq PeerId] [PeerIdBytes PeerId] [SignatureScheme A S] [Codec NodeIndex] [Codec S]
  [Codec Aleph] [Codec Rmc] in
theorem Recorded.insert {entries : List (Option PeerId × NetworkData Aleph Rmc)}
    (h : Recorded splits forwarded) (session : SessionId) (hholds : split'.Holds entries) :
    Recorded (splits.insert session split') (Function.update forwarded session entries) := by
  constructor
  · intro other hnone
    rw [FiniteMap.lookup_insert] at hnone
    split at hnone
    · cases hnone
    · next hne =>
      rw [Function.update_of_ne hne]
      exact h.unstarted other hnone
  · intro other split'' hother
    rw [FiniteMap.lookup_insert] at hother
    split at hother
    · next hsame =>
      subst hsame
      cases hother
      rwa [Function.update_self]
    · next hne =>
      rw [Function.update_of_ne hne]
      exact h.channels other split'' hother

omit [DecidableEq PeerId] [PeerIdBytes PeerId] [SignatureScheme A S] [Codec NodeIndex] [Codec S]
  [Codec Aleph] [Codec Rmc] in
/-- A session whose channels of data hold what is recorded already. -/
theorem Recorded.congr (h : Recorded splits forwarded) (session : SessionId)
    (hholds : split'.Holds (forwarded session)) :
    Recorded (splits.insert session split') forwarded := by
  have hinserted := h.insert session hholds
  rwa [Function.update_eq_self] at hinserted

theorem recorded_step (h : Recorded node.splits node.forwarded) (hstep : Step node event node') :
    Recorded node'.splits node'.forwarded := by
  have hsame : ∀ session split split', node.splits.lookup session = some split →
      split'.dataStore.messages = split.dataStore.messages →
      split'.rmcData.messages = split.rmcData.messages →
      Recorded (node.splits.insert session split') node.forwarded := by
    intro session split split' hlookup hstore hrmc
    apply h.congr session
    rw [SplitNetwork.Holds, hstore, hrmc]
    exact h.channels session split hlookup
  cases hstep with
  | @network event _ outside step =>
    cases event with
    | sessionStarted session keychain =>
      apply h.congr session
      rw [h.unstarted session outside]
      exact ⟨rfl, rfl⟩
    | _ => exact h
  | alephSent data recipient runs => exact hsame _ _ _ runs rfl rfl
  | rmcSent runs sends =>
    rw [rmcSend_eq sends]
    exact hsame _ _ _ runs rfl rfl
  | alephCmdForwarded runs next => exact hsame _ _ _ runs rfl rfl
  | rmcCmdForwarded runs next => exact hsame _ _ _ runs rfl rfl
  | @dataForwarded session split sessionData data rest runs known alive next =>
    rcases h.channels _ _ runs with ⟨hstore, hrmc⟩
    rcases split.forwardData_messages data with ⟨hstore', hrmc'⟩
    apply h.insert session
    constructor
    · rw [hstore', hstore, List.filterMap_append, List.filterMap_map]
      rfl
    · rw [hrmc', hrmc, List.filterMap_append, List.filterMap_map]
      rfl
  | receiverDropped endpoint runs =>
    cases endpoint with
    | alephCmd | rmcCmd | dataStore | rmcData => exact hsame _ _ _ runs rfl rfl

end Recorded

theorem task_cases (h : SplitsSound node.splits) (hstep : Step node event node') :
    TaskMove node.task event node'.task := by
  cases hstep with
  | network outside step => exact .network step
  | alephCmdForwarded runs next =>
    obtain ⟨data, recipient, rfl⟩ := (h _ _ runs).aleph _ (next ▸ List.mem_cons_self)
    exact .queued nofun (.dataQueued _ _ _)
  | rmcCmdForwarded runs next =>
    obtain ⟨data, recipient, rfl⟩ := (h _ _ runs).rmc _ (next ▸ List.mem_cons_self)
    exact .queued nofun (.dataQueued _ _ _)
  | dataForwarded runs known alive next => exact .dataTaken _ nofun known
  | alephSent | rmcSent | receiverDropped => exact .idle nofun

section Moves
variable {task task' : ConsensusNetwork.Task PeerId A S (NetworkData Aleph Rmc)}

theorem TaskMove.localPeerId (h : TaskMove task event task') :
    task'.network.localPeerId = task.network.localPeerId := by
  cases h with
  | network step => exact step_localPeerId step
  | queued _ step => exact step_localPeerId step
  | dataTaken | idle => rfl

theorem TaskMove.protocol (h : TaskMove task event task') :
    task'.network.protocol = task.network.protocol := by
  cases h with
  | network step => exact step_protocol step
  | queued _ step => exact step_protocol step
  | dataTaken | idle => rfl

theorem TaskMove.announces (h : TaskMove task event task') (hannounces : Announces index task)
    (hindex : StartsOwn index event) : Announces index task' := by
  cases h with
  | network step =>
    apply hannounces.step step
    intro session keychain hevent
    exact hindex session keychain (congrArg _ hevent)
  | queued _ step => exact hannounces.step step nofun
  | @dataTaken _ session sessionData _ _ known =>
    refine ⟨?_, hannounces.starting, hannounces.queued⟩
    intro session' sessionData' hlookup
    rw [FiniteMap.lookup_insert] at hlookup
    split at hlookup
    · cases hlookup
      exact hannounces.sessions session sessionData known
    · exact hannounces.sessions session' sessionData' hlookup
  | idle => exact hannounces

/-- What a node sends to a peer names its own index at most. -/
theorem TaskMove.says (h : TaskMove task event task') (hannounces : Announces index task)
    {raw : List UInt8} (hraw : raw ∈ sentTo peer (task'.calls.drop task.calls.length)) :
    Says PeerId S (NetworkData Aleph Rmc) index raw := by
  cases h with
  | network step => exact hannounces.says step hraw
  | queued _ step => exact hannounces.says step hraw
  | dataTaken | idle =>
    rw [List.drop_length] at hraw
    cases hraw

def taken (protocol : String) (peer : PeerId) : Event PeerId A S Aleph Rmc → List (List UInt8)
  | .network event => ConsensusNetwork.taken protocol peer event
  | _ => []

def read (protocol : String) (peer : PeerId) : Event PeerId A S Aleph Rmc → List (List UInt8)
  | .network event => ConsensusNetwork.read protocol peer event
  | _ => []

/-- The notification in hand changes by what is taken and read. -/
theorem TaskMove.heard {protocol : String} (h : TaskMove task event task') :
    read protocol peer event ++ ConsensusNetwork.heard protocol peer task'.loop =
      ConsensusNetwork.heard protocol peer task.loop ++ taken protocol peer event := by
  have hinternal : ∀ {loop}, (∀ e, event ≠ .network e) →
      read protocol peer event ++ ConsensusNetwork.heard protocol peer loop =
        ConsensusNetwork.heard protocol peer loop ++ taken protocol peer event := by
    intro loop hevent
    cases event with
    | network e => exact absurd rfl (hevent e)
    | _ => simp [read, taken]
  cases h with
  | network step => exact ConsensusNetwork.heard_step step
  | queued internal step =>
    cases step
    exact hinternal internal
  | dataTaken _ internal => exact hinternal internal
  | idle internal => exact hinternal internal

/-- A peer that says its own index only is not taken for another one. -/
theorem TaskMove.standsForOwn [LawfulPeerIdBytes PeerId]
    (hindex : ∀ session, Codec.ReadsBack (index session)) (h : TaskMove task event task')
    (hstands : StandsForOwn index peer task)
    (hheard : ∀ raw ∈ read task.network.protocol peer event,
      Says PeerId S (NetworkData Aleph Rmc) index raw) : StandsForOwn index peer task' := by
  cases h with
  | network step => exact hstands.step hindex step hheard
  | queued _ step => exact hstands.step hindex step nofun
  | dataTaken | idle => exact hstands

end Moves
end Steps
end TransportNode
end AlephNode
