import AlephNode.LosslessNodes
import AlephNode.MutualAuthentication

/-!
# A transport that loses nothing

Once both nodes have proved themselves to each other in a session, and as long as nothing
disturbs them, all that the first node sends in the session to everyone or to the second node
is passed on by the second one, once and in order, or it is under way.
-/
namespace AlephNode
namespace Transport
open TransportNode
open ConsensusNetwork (StandsAlone LeavesAlone Serves Receives LeavesUser Reopens)
variable {PeerId A S Aleph Rmc E : Type} [DecidableEq PeerId] [PeerIdBytes PeerId]
  [SignatureScheme A S] [Codec NodeIndex] [Codec S] [Codec Aleph] [Codec Rmc]
  {peerA peerB : PeerId} {protocol : String} {index : SessionId → NodeIndex}
  {t t' : Transport PeerId A S Aleph Rmc} {event : Event PeerId A S Aleph Rmc}
  {events later : List (Event PeerId A S Aleph Rmc)} {part : NetworkData Aleph Rmc → Option E}
  {session : SessionId} {node : NodeIndex}

/-- The first node sends the data of the session for the node to the second one, and the
second one hands it to its user. -/
structure Established (session : SessionId) (node : NodeIndex) (peerA peerB : PeerId)
    (t : Transport PeerId A S Aleph Rmc) : Prop where
  forwards : Forwards session t.a.splits
  serves : Serves t.a.task
  stands : StandsAlone peerB session node t.a.task
  hears : Hears session t.b
  receives : Receives peerA session t.b.task

/-- No message is lost on the link, each node keeps its stream to the other one, nobody else proves
to be the second node, and the channels of the session are not dropped. -/
def Undisturbed (session : SessionId) (node : NodeIndex) (peerA peerB : PeerId)
    (t : Transport PeerId A S Aleph Rmc) : Event PeerId A S Aleph Rmc → Prop
  | .a (.network event) =>
    LeavesAlone peerB session node t.a.task event ∧ event ≠ .networkStreamEnded
  | .a (.receiverDropped session' .alephCmd) => session' ≠ session
  | .a (.receiverDropped session' .rmcCmd) => session' ≠ session
  | .a _ => True
  | .b (.network event) =>
    ¬Reopens t.b.task.network.protocol peerA event ∧ event ≠ .dataNetworkDropped session
  | .b (.receiverDropped session' .dataStore) => session' ≠ session
  | .b (.receiverDropped session' .rmcData) => session' ≠ session
  | .b _ => True
  | .lost => False

theorem Established.step (h : Established session node peerA peerB t)
    (hsplitsA : SplitsSound t.a.splits) (hsplitsB : SplitsSound t.b.splits)
    (hguard : Undisturbed session node peerA peerB t event) (hstep : Step t event t') :
    Established session node peerA peerB t' := by
  cases hstep with
  | @a event a' toA' step takes =>
    have hforwards : Forwards session a'.splits := by
      apply h.forwards.step step
      constructor
      · rintro rfl
        exact hguard rfl
      · rintro rfl
        exact hguard rfl
    have hleaves : ∀ e, event = .network e → LeavesAlone peerB session node t.a.task e ∧
        e ≠ .networkStreamEnded := by
      rintro e rfl
      exact hguard
    have hsends := (task_cases hsplitsA step).keeps_sending h.serves h.stands hleaves
    exact ⟨hforwards, hsends.1, hsends.2, h.hears, h.receives⟩
  | @b event b' toB' step takes =>
    have hleaves : ∀ e, event = .network e → LeavesUser peerA session t.b.task e := by
      rintro e rfl
      cases step with
      | network outside step => exact ⟨hguard.1, h.hears.not_started outside, hguard.2⟩
    have hhears : Hears session b' := by
      apply h.hears.step _ step
      constructor
      · rintro rfl
        exact hguard rfl
      · rintro rfl
        exact hguard rfl
    have hreceives := (task_cases hsplitsB step).keeps_receiving h.receives hleaves
    exact ⟨h.forwards, h.serves, h.stands, hhears, hreceives⟩
  | lost => exact hguard.elim

/-- While nothing disturbs them, the nodes and the link keep what is under way. -/
theorem held_retain (part : NetworkData Aleph Rmc → Option E)
    (hdata : ∀ data : NetworkData Aleph Rmc, Codec.decode (Codec.encode data) = some (data, []))
    (hsound : Sound index peerA peerB t) (h : Established session (index session) peerA peerB t)
    (hguard : Undisturbed session (index session) peerA peerB t event) (hstep : Step t event t')
    {leaves : List E}
    (hleaves : delivered part peerA session t' = delivered part peerA session t ++ leaves) :
    Retains (held part session (index session) peerA t)
      (sent part session (index session) event).toList leaves
      (held part session (index session) peerA t') := by
  cases hstep with
  | @a event a' toA' step takes =>
    have hnothing : leaves = [] := List.self_eq_append_right.mp hleaves
    rw [hnothing]
    have hqueued := queued_retain part hdata hsound.splitsA h.forwards h.serves h.stands step
    rw [hsound.localPeerB]
    refine Retains.comp (Retains.comp .idle ?_) hqueued
    rw [List.filterMap_append]
    exact .enter _ _
  | @b event b' toB' step takes =>
    have hmove := task_cases hsound.splitsB step
    rw [hsound.localPeerA] at takes
    have hlink : Retains (t.toB.filterMap (payload PeerId S part session)) []
        ((taken t.b.task.network.protocol peerA event).filterMap (payload PeerId S part session))
        (toB'.filterMap (payload PeerId S part session)) := by
      rw [takes_eq takes, List.filterMap_append]
      exact .leave _ _
    have hheard : Retains
        ((ConsensusNetwork.heard t.b.task.network.protocol peerA t.b.task.loop).filterMap
          (payload PeerId S part session))
        ((taken t.b.task.network.protocol peerA event).filterMap (payload PeerId S part session))
        ((read t.b.task.network.protocol peerA event).filterMap (payload PeerId S part session))
        ((ConsensusNetwork.heard b'.task.network.protocol peerA b'.task.loop).filterMap
          (payload PeerId S part session)) := by
      rw [Retains, ← List.length_append, ← List.length_append, ← List.filterMap_append,
        ← List.filterMap_append, hmove.protocol, hmove.heard]
    have harrived := arrived_retain part hsound.aligned h.receives h.hears step hleaves
    exact Retains.comp (Retains.comp (Retains.comp harrived hheard) hlink) .idle
  | lost => exact hguard.elim

/-- Nothing is lost between two nodes. If the first one sends the data of a session to the second one
and the second one hands it to its user, then, as long as nothing disturbs them, the data of each
component that was under way and that the first node sends through the handle of the component is
what the second node puts on the channel of the component, and what is under way in the end, in
order. -/
theorem nothing_lost [LawfulPeerIdBytes PeerId]
    (haleph : ∀ data : Aleph, Codec.decode (Codec.encode data) = some (data, []))
    (hrmc : ∀ data : Rmc, Codec.decode (Codec.encode data) = some (data, []))
    (hindex : ∀ session, Codec.ReadsBack (index session))
    (hrun : Run (Guarded Step (HoldsIndex index))
      (initial peerA peerB protocol : Transport PeerId A S Aleph Rmc) events t)
    (hestablished : Established session (index session) peerA peerB t)
    (hlater : Run (Guarded (Guarded Step (HoldsIndex index))
      (Undisturbed session (index session) peerA peerB)) t later t') :
    (∃ passedOn, delivered NetworkData.aleph? peerA session t' =
        delivered NetworkData.aleph? peerA session t ++ passedOn ∧
      held NetworkData.aleph? session (index session) peerA t ++
          later.reverse.filterMap (sent NetworkData.aleph? session (index session)) =
        passedOn ++ held NetworkData.aleph? session (index session) peerA t') ∧
    (∃ passedOn, delivered NetworkData.rmc? peerA session t' =
        delivered NetworkData.rmc? peerA session t ++ passedOn ∧
      held NetworkData.rmc? session (index session) peerA t ++
          later.reverse.filterMap (sent NetworkData.rmc? session (index session)) =
        passedOn ++ held NetworkData.rmc? session (index session) peerA t') ∧
    ∀ split, t'.b.splits.lookup session = some split → split.Holds (t'.b.forwarded session) := by
  have hdata := NetworkData.decode_encode haleph hrmc
  have hsound := sound_of_run hindex hrun
  have hall : ∀ {E : Type} (part : NetworkData Aleph Rmc → Option E), OfOneComponent part →
      ∃ passedOn, delivered part peerA session t' = delivered part peerA session t ++ passedOn ∧
        held part session (index session) peerA t ++
            later.reverse.filterMap (sent part session (index session)) =
          passedOn ++ held part session (index session) peerA t' := by
    intro E part hpart
    apply hlater.conveyed (held part session (index session) peerA) (delivered part peerA session)
      (fun t => Sound index peerA peerB t ∧ Established session (index session) peerA peerB t)
      ⟨hsound, hestablished⟩
    rintro t event t' ⟨h, hestablished⟩ ⟨hguard, hholds, hstep⟩
    rcases held_relay hpart hdata h hstep with ⟨leaves, hleaves, hrelays⟩
    refine ⟨⟨sound_step hindex h hholds hstep, ?_⟩, leaves, hleaves, hrelays, ?_⟩
    · exact hestablished.step h.splitsA h.splitsB hguard hstep
    · exact held_retain part hdata h hestablished hguard hstep hleaves
  have hsound' : Sound index peerA peerB t' := by
    apply hlater.invariant (Sound index peerA peerB) hsound
    rintro t event t' h ⟨_, hholds, hstep⟩
    exact sound_step hindex h hholds hstep
  exact ⟨hall _ (.inr fun _ => rfl), hall _ (.inl fun _ => rfl), hsound'.recorded.channels session⟩

omit [DecidableEq PeerId] [PeerIdBytes PeerId] [SignatureScheme A S] [Codec NodeIndex] [Codec S]
  [Codec Aleph] [Codec Rmc] in
/-- Nodes that are linked take part in every session with their indices. -/
theorem Linked.holdsIndex {authoritiesOf : SessionId → List A} {indexA indexB : SessionId → NodeIndex}
    [DecidableEq PeerId] (h : Linked authoritiesOf indexA indexB t event) :
    HoldsIndex indexB t event := by
  cases event with
  | b event =>
    cases event with
    | network event =>
      cases event with
      | sessionStarted session keychain => exact (KeyBox.new_eq_ok.mp (h.2 session keychain rfl)).1
      | _ => trivial
    | _ => trivial
  | _ => trivial

end Transport

section Example
open TransportNode ConsensusNetwork
attribute [local instance] nodeIndexCodec nodeIndexCodec_lawful byteSums

private def busyNode (peer remote : PlainPeer) (id remoteId : NodeIndex)
    (waiting : List (NetworkData UInt8 UInt8)) (commands : List HostCommand) (loop : Loop PlainPeer)
    (calls : List (NetworkCall PlainPeer)) (split : SplitNetwork PlainPeer UInt32 UInt8 UInt8)
    (arrived : SessionId → List (PlainPeer × NetworkData UInt8 UInt8)) : HostNode :=
  let started := ((new peer "p").startSession ⟨0⟩ (hostKeychain id)).1
  ⟨⟨{ started with
      sessions := started.sessions.modify ⟨0⟩ (fun sessionData =>
        { sessionData with dataForUser := ⟨waiting, true⟩ })
      peers := (met remote).authenticate remote ⟨0⟩ remoteId
      commands := ⟨commands, true⟩ }, loop, [], calls⟩,
    (∅ : FiniteMap _ _).insert ⟨0⟩ split, arrived, fun _ => []⟩

private def hostData : List UInt8 :=
  Codec.encode (.ofData ⟨0⟩ (.aleph 42) : InternalMessage PlainPeer UInt32 (NetworkData UInt8 UInt8))

section Moves
variable {peer remote : PlainPeer} {id remoteId : NodeIndex} {commands : List HostCommand}
  {loop : Loop PlainPeer} {calls : List (NetworkCall PlainPeer)}
  {arrived : SessionId → List (PlainPeer × NetworkData UInt8 UInt8)}

private theorem busyNode_sent :
    TransportNode.Step
      (busyNode peer remote id remoteId [] commands loop calls (.splitNetwork ⟨0⟩) arrived)
      (.alephSent ⟨0⟩ 42 .everyone)
      (busyNode peer remote id remoteId [] commands loop calls
        ((SplitNetwork.splitNetwork ⟨0⟩).alephSend 42 .everyone) arrived) :=
  .alephSent 42 .everyone (by rfl)

private theorem busyNode_forwarded :
    TransportNode.Step
      (busyNode peer remote id remoteId [] [] loop calls
        ((SplitNetwork.splitNetwork ⟨0⟩).alephSend 42 .everyone) arrived)
      (.alephCmdForwarded ⟨0⟩)
      (busyNode peer remote id remoteId [] [.ofData ⟨0⟩ (.aleph 42) .all] loop calls
        (.splitNetwork ⟨0⟩) arrived) := by
  have hruns : (busyNode peer remote id remoteId [] [] loop calls
      ((SplitNetwork.splitNetwork ⟨0⟩).alephSend 42 .everyone) arrived).splits.lookup ⟨0⟩ =
      some ((SplitNetwork.splitNetwork ⟨0⟩).alephSend 42 .everyone) := rfl
  have hnext : ((SplitNetwork.splitNetwork ⟨0⟩ :
      SplitNetwork PlainPeer UInt32 UInt8 UInt8).alephSend 42 .everyone).alephCmd.messages =
      [.ofData ⟨0⟩ 42 .all] := rfl
  exact .alephCmdForwarded hruns hnext

private theorem busyNode_commanded :
    TransportNode.Step
      (busyNode ⟨1⟩ ⟨2⟩ ⟨0⟩ ⟨1⟩ [] [.ofData ⟨0⟩ (.aleph 42) .all] .select calls
        (.splitNetwork ⟨0⟩) arrived)
      (.network (.command (.ofData ⟨0⟩ (.aleph 42) .all) [⟨2⟩] [⟨1⟩]))
      (busyNode ⟨1⟩ ⟨2⟩ ⟨0⟩ ⟨1⟩ [] [] .retaining (calls ++ [.sendMessage ⟨2⟩ "p" hostData])
        (.splitNetwork ⟨0⟩) arrived) := by
  have hpeers : Enumerates [⟨2⟩] ((met ⟨2⟩).authenticate ⟨2⟩ ⟨0⟩ ⟨1⟩).allPeers.keys := by decide
  have hnodes : ∀ session nodes, ((met ⟨2⟩).authenticate ⟨2⟩ ⟨0⟩ ⟨1⟩).toPeer.lookup session =
      some nodes → (∃ data recipient, (.ofData ⟨0⟩ (.aleph 42) .all : HostCommand) =
        .ofData session data recipient) → Enumerates [⟨1⟩] nodes.keys := by
    rintro session nodes hlookup ⟨_, _, hcommand⟩
    cases hcommand
    cases hlookup
    decide
  exact .network (by trivial) (.command (by rfl) hpeers hnodes)

private theorem busyNode_notified (messages : List (String × List UInt8)) :
    TransportNode.Step
      (busyNode peer remote id remoteId [] commands .select calls (.splitNetwork ⟨0⟩) arrived)
      (.network (.notificationsReceived remote messages))
      (busyNode peer remote id remoteId [] commands (.receiving remote messages) calls
        (.splitNetwork ⟨0⟩) arrived) :=
  .network (by trivial) (.notificationsReceived _ _)

private theorem busyNode_read (calls : List (NetworkCall PlainPeer))
    (arrived : SessionId → List (PlainPeer × NetworkData UInt8 UInt8)) : ∃ arrived', TransportNode.Step
    (busyNode ⟨2⟩ ⟨1⟩ ⟨1⟩ ⟨0⟩ [] [] (.receiving ⟨1⟩ [("p", hostData)]) calls (.splitNetwork ⟨0⟩) arrived)
    (.network (.message ⟨1⟩ "p" hostData))
    (busyNode ⟨2⟩ ⟨1⟩ ⟨1⟩ ⟨0⟩ [.aleph 42] [] (.receiving ⟨1⟩ []) calls (.splitNetwork ⟨0⟩)
      arrived') ∧ arrived' ⟨0⟩ = arrived ⟨0⟩ ++ [(⟨1⟩, .aleph 42)] :=
  ⟨_, .network (by trivial) (.message (by rfl)), by rfl⟩

private theorem busyNode_passedOn (horigin : (arrived ⟨0⟩).head?.map Prod.fst = some ⟨1⟩) :
    ∃ node, TransportNode.Step
      (busyNode ⟨2⟩ ⟨1⟩ ⟨1⟩ ⟨0⟩ [.aleph 42] [] loop calls (.splitNetwork ⟨0⟩) arrived)
      (.dataForwarded ⟨0⟩ (some ⟨1⟩) (.aleph 42)) node ∧
      node.forwarded ⟨0⟩ = [(some ⟨1⟩, .aleph 42)] := by
  have hruns : (busyNode ⟨2⟩ ⟨1⟩ ⟨1⟩ ⟨0⟩ [.aleph 42] [] loop calls (.splitNetwork ⟨0⟩)
      arrived).splits.lookup ⟨0⟩ = some (.splitNetwork ⟨0⟩) := rfl
  rw [← horigin]
  exact ⟨_, .dataForwarded hruns (by rfl) (by rfl) (by rfl), by rfl⟩

end Moves

private theorem acquainted_established
    {arrivedA arrivedB : SessionId → List (PlainPeer × NetworkData UInt8 UInt8)} :
    Transport.Established ⟨0⟩ ⟨1⟩ ⟨1⟩ ⟨2⟩ (acquainted arrivedA arrivedB) where
  forwards := ⟨.splitNetwork ⟨0⟩, rfl, rfl, rfl⟩
  serves := ⟨nofun, rfl⟩
  stands := by
    constructor
    · rfl
    · intro remote hremote
      simp only [acquainted, hostNode, Peers.nodeOf_authenticate] at hremote
      split at hremote
      · next hsame => exact hsame.1
      · simp [met, Peers.nodeOf_insert] at hremote
  hears := ⟨.splitNetwork ⟨0⟩, rfl, rfl, rfl⟩
  receives := ⟨rfl, _, rfl, rfl, rfl⟩

private abbrev UndisturbedRun : HostTransport →
    List (Transport.Event PlainPeer UInt32 UInt32 UInt8 UInt8) → HostTransport → Prop :=
  Run (Guarded (Guarded Transport.Step (Transport.HoldsIndex fun _ => ⟨1⟩))
    (Transport.Undisturbed ⟨0⟩ ⟨1⟩ ⟨1⟩ ⟨2⟩))

private theorem leavesAlone_command {peer : PlainPeer} {session : SessionId} {node : NodeIndex}
    {task : Task PlainPeer UInt32 UInt32 (NetworkData UInt8 UInt8)} {command : HostCommand}
    {peerOrder : List PlainPeer} {nodeOrder : List NodeIndex} :
    LeavesAlone peer session node task (.command command peerOrder nodeOrder) := by
  constructor
  · simp
  · intro remote hcauses
    cases hcauses

private theorem undisturbed_run
    (arrivedA : SessionId → List (PlainPeer × NetworkData UInt8 UInt8))
    {arrivedB : SessionId → List (PlainPeer × NetworkData UInt8 UInt8)} (harrived : arrivedB ⟨0⟩ = []) :
    ∃ events t, UndisturbedRun (acquainted arrivedA arrivedB) events t ∧
      events.reverse.filterMap (Transport.sent NetworkData.aleph? ⟨0⟩ ⟨1⟩) = [42] ∧
      Transport.delivered NetworkData.aleph? ⟨1⟩ ⟨0⟩ t = [42] := by
  have hforwarded : UndisturbedRun (acquainted arrivedA arrivedB) _ _ := (Run.refl.tail
      ⟨by trivial, by trivial, .a busyNode_sent (by rfl)⟩).tail
    ⟨by trivial, by trivial, .a busyNode_forwarded (by rfl)⟩
  have hcommanded := hforwarded.tail ⟨by exact ⟨leavesAlone_command, by simp⟩, by trivial,
    .a busyNode_commanded (by rfl)⟩
  have hnotified := hcommanded.tail ⟨by exact ⟨id, by simp⟩, by trivial,
    .b (busyNode_notified [("p", hostData)]) (by rfl)⟩
  rcases busyNode_read [.sendMessage ⟨1⟩ "p" (hostMessage ⟨2⟩ ⟨1⟩)] arrivedB with
    ⟨arrived, hread, hwaits⟩
  have hread := hnotified.tail ⟨by exact ⟨id, by simp⟩, by trivial, .b hread (by rfl)⟩
  have horigin : (arrived ⟨0⟩).head?.map Prod.fst = some ⟨1⟩ := by
    simp [hwaits, harrived]
  rcases busyNode_passedOn horigin with ⟨node, hpassed, hforwarded⟩
  refine ⟨_, _, hread.tail ⟨by trivial, by trivial, .b hpassed (by rfl)⟩, rfl, ?_⟩
  rw [Transport.delivered, hforwarded]
  rfl

/-- What the first node sends after both have read the announcements is passed on. -/
theorem Transport.nothing_lost_spoken : ∃ events t later t',
    Run (Guarded Transport.Step (Transport.HoldsIndex fun _ => ⟨1⟩))
      (Transport.initial ⟨1⟩ ⟨2⟩ "p" : Transport PlainPeer UInt32 UInt32 UInt8 UInt8) events t ∧
    Transport.Established ⟨0⟩ ⟨1⟩ ⟨1⟩ ⟨2⟩ t ∧
    Run (Guarded (Guarded Transport.Step (Transport.HoldsIndex fun _ => ⟨1⟩))
      (Transport.Undisturbed ⟨0⟩ ⟨1⟩ ⟨1⟩ ⟨2⟩)) t later t' ∧
    later.reverse.filterMap (Transport.sent NetworkData.aleph? ⟨0⟩ ⟨1⟩) = [42] ∧
    Transport.delivered NetworkData.aleph? ⟨1⟩ ⟨0⟩ t' = [42] ∧
    Transport.held NetworkData.aleph? ⟨0⟩ ⟨1⟩ ⟨1⟩ t' = [] := by
  have hplain : ∀ data : UInt8, Codec.decode (Codec.encode data) = some (data, []) := fun _ => rfl
  have hindex : ∀ _ : SessionId, Codec.ReadsBack (⟨1⟩ : NodeIndex) := by
    intro _ rest
    show (Codec.decodeFixed 8 (Codec.encodeFixed 8 1 ++ rest)).map _ = _
    rw [Codec.decodeFixed_encodeFixed]
    rfl
  rcases presented_run with ⟨first, hpresented⟩
  rcases acquainted_run with ⟨second, arrivedA, arrivedB, hacquainted, harrived⟩
  rcases undisturbed_run arrivedA harrived with ⟨later, t', hlater, hsent, hdelivered⟩
  have hrun : HostRun (Transport.initial ⟨1⟩ ⟨2⟩ "p") (second ++ first)
      (acquainted arrivedA arrivedB) := Run.append_iff.mpr ⟨_, hpresented, hacquainted⟩
  have hholds : Run (Guarded Transport.Step (Transport.HoldsIndex fun _ => ⟨1⟩))
      (Transport.initial ⟨1⟩ ⟨2⟩ "p") (second ++ first) (acquainted arrivedA arrivedB) :=
    hrun.mono fun _ _ _ h => ⟨Transport.Linked.holdsIndex h.1, h.2⟩
  rcases Transport.nothing_lost hplain hplain hindex hholds acquainted_established hlater with
    ⟨⟨passedOn, hpassedOn, hall⟩, -⟩
  have hbefore : Transport.held NetworkData.aleph? ⟨0⟩ ⟨1⟩ ⟨1⟩ (acquainted arrivedA arrivedB) = [] := by
    simp only [Transport.held, acquainted, hostNode, harrived]
    rfl
  have hnone : Transport.delivered NetworkData.aleph? ⟨1⟩ ⟨0⟩ (acquainted arrivedA arrivedB) = [] := rfl
  rw [hnone, hdelivered, List.nil_append] at hpassedOn
  rw [hbefore, hsent, ← hpassedOn, List.nil_append] at hall
  have hafter := List.self_eq_append_right.mp hall
  exact ⟨_, _, later, t', hholds, acquainted_established, hlater, hsent, hdelivered, hafter⟩

end Example
end AlephNode
