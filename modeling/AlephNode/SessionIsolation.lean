import AlephNode.SessionRelays

/-!
# Isolation of sessions and components

From a handle of a session at one node to the channel behind `forward_data` of the other
node, the data of one component of one session passes two stages, the link, and two stages
again. So what comes out is, in order, part of what went in.
-/
namespace AlephNode
namespace Transport
open TransportNode
open ConsensusNetwork (Announces StandsForOwn Says heard announces_initial)
variable {PeerId A S Aleph Rmc E : Type} [DecidableEq PeerId] [PeerIdBytes PeerId]
  [SignatureScheme A S] [Codec NodeIndex] [Codec S] [Codec Aleph] [Codec Rmc]
  {peerA peerB : PeerId} {protocol : String} {index : SessionId → NodeIndex}
  {t t' : Transport PeerId A S Aleph Rmc} {event : Event PeerId A S Aleph Rmc}
  {events : List (Event PeerId A S Aleph Rmc)} {part : NetworkData Aleph Rmc → Option E}
  {session : SessionId}

/-- The second node announces its own indices only, and so it is known to the first one. -/
structure Sound (index : SessionId → NodeIndex) (peerA peerB : PeerId)
    (t : Transport PeerId A S Aleph Rmc) : Prop where
  localPeerA : t.a.task.network.localPeerId = peerA
  localPeerB : t.b.task.network.localPeerId = peerB
  splitsA : SplitsSound t.a.splits
  splitsB : SplitsSound t.b.splits
  aligned : Aligned t.b
  recorded : Recorded t.b.splits t.b.forwarded
  announces : Announces index t.b.task
  toA : ∀ raw ∈ t.toA, Says PeerId S (NetworkData Aleph Rmc) index raw
  heardA : ∀ raw ∈ heard t.a.task.network.protocol peerB t.a.task.loop,
    Says PeerId S (NetworkData Aleph Rmc) index raw
  standsFor : StandsForOwn index peerB t.a.task

omit [SignatureScheme A S] in
theorem sound_initial :
    Sound index peerA peerB (initial peerA peerB protocol : Transport PeerId A S Aleph Rmc) where
  localPeerA := rfl
  localPeerB := rfl
  splitsA _ _ h := by simp [initial, TransportNode.initial] at h
  splitsB _ _ h := by simp [initial, TransportNode.initial] at h
  aligned := aligned_initial
  recorded := by
    constructor
    · intro _ _
      rfl
    · intro _ _ h
      simp [initial, TransportNode.initial] at h
  announces := announces_initial
  toA _ h := by cases h
  heardA _ h := by cases h
  standsFor _ _ h := by
    simp [initial, TransportNode.initial, ConsensusNetwork.Task.initial, ConsensusNetwork.new] at h

omit [PeerIdBytes PeerId] [SignatureScheme A S] [Codec NodeIndex] [Codec S] [Codec Aleph]
  [Codec Rmc] in
theorem takes_eq {peer : PeerId} {link rest : List (List UInt8)}
    {event : TransportNode.Event PeerId A S Aleph Rmc} (h : Takes protocol peer link rest event) :
    link = taken protocol peer event ++ rest := by
  cases event with
  | network event =>
    cases event with
    | notificationsReceived remote messages =>
      simp only [Takes] at h
      simp only [taken, ConsensusNetwork.taken, heard]
      split at h
      · next hremote =>
        rw [if_pos hremote]
        exact h
      · next hremote =>
        rw [if_neg hremote, h]
        rfl
    | _ => exact h.symm
  | _ => exact h.symm

theorem sound_step [LawfulPeerIdBytes PeerId]
    (hindex : ∀ session, Codec.ReadsBack (index session)) (h : Sound index peerA peerB t)
    (hguard : HoldsIndex index t event) (hstep : Step t event t') : Sound index peerA peerB t' := by
  cases hstep with
  | @a event a' toA' step takes =>
    have hmove := task_cases h.splitsA step
    rw [h.localPeerB] at takes
    have hlink := takes_eq takes
    have hheard : ∀ raw ∈ heard t.a.task.network.protocol peerB t.a.task.loop ++
        taken t.a.task.network.protocol peerB event,
        Says PeerId S (NetworkData Aleph Rmc) index raw := by
      intro raw hraw
      obtain hbefore | htaken := List.mem_append.mp hraw
      · exact h.heardA raw hbefore
      · exact h.toA raw (hlink ▸ List.mem_append_left _ htaken)
    rw [← hmove.heard] at hheard
    refine ⟨?_, h.localPeerB, splitsSound_step h.splitsA step, h.splitsB, h.aligned, h.recorded,
      h.announces, ?_, ?_, ?_⟩
    · exact hmove.localPeerId.trans h.localPeerA
    · exact fun raw hraw => h.toA raw (hlink ▸ List.mem_append_right _ hraw)
    · rw [hmove.protocol]
      exact fun raw hraw => hheard raw (List.mem_append_right _ hraw)
    · exact hmove.standsForOwn hindex h.standsFor fun raw hraw =>
        hheard raw (List.mem_append_left _ hraw)
  | @b event b' toB' step takes =>
    have hmove := task_cases h.splitsB step
    have hstarts : StartsOwn index event := by
      rintro session keychain rfl
      exact hguard
    refine ⟨h.localPeerA, ?_, h.splitsA, splitsSound_step h.splitsB step,
      aligned_step h.aligned step, recorded_step h.recorded step,
      hmove.announces h.announces hstarts, ?_, h.heardA, h.standsFor⟩
    · exact hmove.localPeerId.trans h.localPeerB
    · intro raw hraw
      obtain hbefore | hnew := List.mem_append.mp hraw
      · exact h.toA raw hbefore
      · exact hmove.says h.announces hnew
  | lost keptA keptB =>
    exact ⟨h.localPeerA, h.localPeerB, h.splitsA, h.splitsB, h.aligned, h.recorded, h.announces,
      fun raw hraw => h.toA raw (keptA.subset hraw), h.heardA, h.standsFor⟩

/-- What is under way of a session from the first node to the second one, what is nearest to
its end first. -/
def held (part : NetworkData Aleph Rmc → Option E) (session : SessionId) (index : NodeIndex)
    (peer : PeerId) (t : Transport PeerId A S Aleph Rmc) : List E :=
  arrivals part peer (t.b.arrived session) ++
    (heard t.b.task.network.protocol peer t.b.task.loop).filterMap (payload PeerId S part session) ++
    t.toB.filterMap (payload PeerId S part session) ++ queued part session index t.a

theorem held_relay (hpart : OfOneComponent part)
    (hdata : ∀ data : NetworkData Aleph Rmc, Codec.decode (Codec.encode data) = some (data, []))
    (h : Sound index peerA peerB t) (hstep : Step t event t') :
    ∃ leaves, delivered part peerA session t' = delivered part peerA session t ++ leaves ∧
      Relays (held part session (index session) peerA t)
        (sent part session (index session) event).toList leaves
        (held part session (index session) peerA t') := by
  cases hstep with
  | @a event a' toA' step takes =>
    have hqueued := queued_relay hpart hdata session h.splitsA h.standsFor step
    rw [h.localPeerB]
    refine ⟨[], (List.append_nil _).symm, Relays.comp (Relays.comp .idle ?_) hqueued⟩
    rw [List.filterMap_append]
    exact .enter _ _
  | @b event b' toB' step takes =>
    have hmove := task_cases h.splitsB step
    rw [h.localPeerA] at takes
    have hlink : Relays (t.toB.filterMap (payload PeerId S part session)) []
        ((taken t.b.task.network.protocol peerA event).filterMap (payload PeerId S part session))
        (toB'.filterMap (payload PeerId S part session)) := by
      rw [takes_eq takes, List.filterMap_append]
      exact .leave _ _
    have hheard : Relays (heard t.b.task.network.protocol peerA t.b.task.loop)
        (taken t.b.task.network.protocol peerA event)
        (read t.b.task.network.protocol peerA event)
        (heard b'.task.network.protocol peerA b'.task.loop) := by
      rw [Relays, hmove.protocol, hmove.heard]
    rcases arrived_relay part peerA session h.aligned step with ⟨leaves, hforwarded, harrived⟩
    exact ⟨leaves, hforwarded,
      Relays.comp (Relays.comp (Relays.comp harrived (hheard.filterMap _)) hlink) .idle⟩
  | lost keptA keptB =>
    refine ⟨[], (List.append_nil _).symm, Relays.comp (Relays.comp .idle ?_) .idle⟩
    exact .lost (keptB.filterMap _)

theorem sound_of_run [LawfulPeerIdBytes PeerId] (hindex : ∀ session, Codec.ReadsBack (index session))
    (hrun : Run (Guarded Step (HoldsIndex index))
      (initial peerA peerB protocol : Transport PeerId A S Aleph Rmc) events t) :
    Sound index peerA peerB t := by
  apply hrun.invariant (Sound index peerA peerB) sound_initial
  rintro t event t' h ⟨hguard, hstep⟩
  exact sound_step hindex h hguard hstep

/-- Sessions and components are isolated. If the second node takes part in every session with one
index of its own, then in every run the data of one component of one session that it has put on the
channel of this component and has from the first node is, in order and without repetition, part of
what the first node has sent through the handle of this component in this session to everyone or to
this index. What is recorded at the second node is what the channels hold. -/
theorem sessions_isolated [LawfulPeerIdBytes PeerId]
    (haleph : ∀ data : Aleph, Codec.decode (Codec.encode data) = some (data, []))
    (hrmc : ∀ data : Rmc, Codec.decode (Codec.encode data) = some (data, []))
    (hindex : ∀ session, Codec.ReadsBack (index session))
    (hrun : Run (Guarded Step (HoldsIndex index))
      (initial peerA peerB protocol : Transport PeerId A S Aleph Rmc) events t)
    (session : SessionId) :
    (delivered NetworkData.aleph? peerA session t).Sublist
        (events.reverse.filterMap (sent NetworkData.aleph? session (index session))) ∧
      (delivered NetworkData.rmc? peerA session t).Sublist
        (events.reverse.filterMap (sent NetworkData.rmc? session (index session))) ∧
      ∀ split, t.b.splits.lookup session = some split → split.Holds (t.b.forwarded session) := by
  have hdata := NetworkData.decode_encode haleph hrmc
  have hall : ∀ {E : Type} (part : NetworkData Aleph Rmc → Option E), OfOneComponent part →
      (delivered part peerA session t).Sublist
        (events.reverse.filterMap (sent part session (index session))) := by
    intro E part hpart
    apply hrun.relayed (held part session (index session) peerA) (delivered part peerA session)
      (Sound index peerA peerB) sound_initial rfl rfl
    rintro t event t' h ⟨hguard, hstep⟩
    exact ⟨sound_step hindex h hguard hstep, held_relay hpart hdata h hstep⟩
  exact ⟨hall _ (.inr fun _ => rfl), hall _ (.inl fun _ => rfl),
    (sound_of_run hindex hrun).recorded.channels session⟩

end Transport

section Example
open TransportNode ConsensusNetwork
attribute [local instance] nodeIndexCodec

private abbrev PlainData := NetworkData UInt8 UInt8
private abbrev PlainNode := TransportNode PlainPeer PlainKey PlainSignature UInt8 UInt8
private abbrev PlainTransport := Transport PlainPeer PlainKey PlainSignature UInt8 UInt8
private abbrev PlainSplit := SplitNetwork PlainPeer PlainSignature UInt8 UInt8

/-- One of two nodes that takes part in session 0, with data that waits in the session. -/
private def plainNode (peer : PlainPeer) (id : NodeIndex) (waiting : List PlainData)
    (peers : Peers PlainPeer) (commands : List (SessionCommand PlainPeer PlainSignature PlainData))
    (loop : Loop PlainPeer) (calls : List (NetworkCall PlainPeer)) (split : PlainSplit)
    (arrived : SessionId → List (PlainPeer × PlainData)) : PlainNode :=
  let started := (new peer "p").startSession ⟨0⟩ ⟨id, ⟨.ofNat (7 + id.val)⟩, [⟨7⟩, ⟨8⟩]⟩
  let sessions := started.1.sessions.modify ⟨0⟩ (fun sessionData =>
    { sessionData with dataForUser := ⟨waiting, true⟩ })
  ⟨⟨{ started.1 with sessions := sessions, peers := peers, commands := ⟨commands, true⟩ }, loop,
    [started.2], calls⟩, (∅ : FiniteMap _ _).insert ⟨0⟩ split, arrived, fun _ => []⟩

private def announcement (peer : PlainPeer) (id : NodeIndex) : List UInt8 :=
  Codec.encode (.ofMeta (plainMeta peer id) : InternalMessage PlainPeer PlainSignature PlainData)

private def memberData : List UInt8 :=
  Codec.encode
    (.ofData ⟨0⟩ (.aleph 42) : InternalMessage PlainPeer PlainSignature PlainData)

private def known (remote : PlainPeer) : Peers PlainPeer := Peers.new.insert remote

private def provedAs (remote : PlainPeer) (id : NodeIndex) : Peers PlainPeer :=
  (known remote).authenticate remote ⟨0⟩ id

private def noData : SessionId → List (PlainPeer × PlainData) := Function.update (fun _ => []) ⟨0⟩ []

section Moves
variable {peer : PlainPeer} {id : NodeIndex} {waiting : List PlainData} {peers : Peers PlainPeer}
  {commands : List (SessionCommand PlainPeer PlainSignature PlainData)}
  {calls : List (NetworkCall PlainPeer)} {split : PlainSplit}
  {arrived : SessionId → List (PlainPeer × PlainData)}

private theorem plainNode_started
    (hkeychain : ∃ id' authorities, KeyBox.new id' authorities =
      .ok (⟨id, ⟨.ofNat (7 + id.val)⟩, [⟨7⟩, ⟨8⟩]⟩ : KeyBox PlainKey)) :
    TransportNode.Step (.initial peer "p")
      (.network (.sessionStarted ⟨0⟩ ⟨id, ⟨.ofNat (7 + id.val)⟩, [⟨7⟩, ⟨8⟩]⟩))
      (plainNode peer id [] .new [] .select [] (.splitNetwork ⟨0⟩) noData) :=
  .network (by rfl) (.sessionStarted _ hkeychain)

private theorem plainNode_retained :
    TransportNode.Step (plainNode peer id waiting peers commands .retaining calls split arrived)
      (.network .sessionsRetained)
      (plainNode peer id waiting peers commands .select calls split arrived) :=
  .network (by trivial) .sessionsRetained

private theorem plainNode_opened (remote : PlainPeer) :
    TransportNode.Step (plainNode peer id waiting .new [] .select calls split arrived)
      (.network (.streamOpened remote "p" [⟨0⟩]))
      (plainNode peer id waiting (known remote) [.ofMeta (plainMeta peer id) (.target remote)]
        .retaining calls split arrived) := by
  have henumerates : Enumerates [⟨0⟩] ({⟨0⟩} : Finset SessionId) := by decide
  exact .network (by trivial) (.streamOpened _ henumerates (by rfl))

private theorem plainNode_commanded {command : SessionCommand PlainPeer PlainSignature PlainData}
    {peerOrder : List PlainPeer} {nodeOrder : List NodeIndex}
    (hpeers : Enumerates peerOrder peers.allPeers.keys)
    (hnodes : ∀ session nodes, peers.toPeer.lookup session = some nodes →
      (∃ data recipient, command = .ofData session data recipient) →
      Enumerates nodeOrder nodes.keys) :
    TransportNode.Step
      (plainNode peer id waiting peers (command :: commands) .select calls split arrived)
      (.network (.command command peerOrder nodeOrder))
      (plainNode peer id waiting peers commands .retaining (calls ++
          (plainNode peer id waiting peers (command :: commands) .select calls split
            arrived).task.network.onCommand peerOrder nodeOrder command) split arrived) :=
  .network (by trivial) (.command (by rfl) hpeers hnodes)

private theorem plainNode_notified (remote : PlainPeer) (messages : List (String × List UInt8)) :
    TransportNode.Step (plainNode peer id waiting peers commands .select calls split arrived)
      (.network (.notificationsReceived remote messages))
      (plainNode peer id waiting peers commands (.receiving remote messages) calls split arrived) :=
  .network (by trivial) (.notificationsReceived _ _)

private theorem plainNode_done {remote : PlainPeer} :
    TransportNode.Step
      (plainNode peer id waiting peers commands (.receiving remote []) calls split arrived)
      (.network .messagesDone)
      (plainNode peer id waiting peers commands .retaining calls split arrived) :=
  .network (by trivial) .messagesDone

private theorem plainNode_sent {loop : Loop PlainPeer} :
    TransportNode.Step (plainNode peer id waiting peers commands loop calls split arrived)
      (.alephSent ⟨0⟩ 42 .everyone)
      (plainNode peer id waiting peers commands loop calls (split.alephSend 42 .everyone)
        arrived) :=
  .alephSent 42 .everyone (by rfl)

private theorem plainNode_forwarded {loop : Loop PlainPeer} :
    TransportNode.Step (plainNode peer id waiting peers [] loop calls
        ((.splitNetwork ⟨0⟩ : PlainSplit).alephSend 42 .everyone) arrived)
      (.alephCmdForwarded ⟨0⟩)
      (plainNode peer id waiting peers [.ofData ⟨0⟩ (.aleph 42) .all] loop calls
        (.splitNetwork ⟨0⟩) arrived) := by
  have hruns : (plainNode peer id waiting peers [] loop calls
      ((.splitNetwork ⟨0⟩ : PlainSplit).alephSend 42 .everyone) arrived).splits.lookup ⟨0⟩ =
      some ((.splitNetwork ⟨0⟩ : PlainSplit).alephSend 42 .everyone) := rfl
  have hnext : ((.splitNetwork ⟨0⟩ : PlainSplit).alephSend 42 .everyone).alephCmd.messages =
      [.ofData ⟨0⟩ 42 .all] := rfl
  exact .alephCmdForwarded hruns hnext

end Moves

private def introduced : PlainTransport where
  a := plainNode ⟨1⟩ ⟨0⟩ [] (known ⟨2⟩) [] .select
    [.sendMessage ⟨2⟩ "p" (announcement ⟨1⟩ ⟨0⟩)] (.splitNetwork ⟨0⟩) noData
  b := plainNode ⟨2⟩ ⟨1⟩ [] (known ⟨1⟩) [] .select
    [.sendMessage ⟨1⟩ "p" (announcement ⟨2⟩ ⟨1⟩)] (.splitNetwork ⟨0⟩) noData
  toA := [announcement ⟨2⟩ ⟨1⟩]
  toB := [announcement ⟨1⟩ ⟨0⟩]

private theorem introduced_run : ∃ events,
    Run (Guarded Transport.Step (Transport.HoldsIndex fun _ => ⟨1⟩))
      (Transport.initial ⟨1⟩ ⟨2⟩ "p" : PlainTransport) events introduced := by
  have hannounced : ∀ {peer remote : PlainPeer} {id : NodeIndex} session nodes,
      (known remote).toPeer.lookup session = some nodes → (∃ data recipient,
        (.ofMeta (plainMeta peer id) (.target remote) :
          SessionCommand PlainPeer PlainSignature PlainData) = .ofData session data recipient) →
      Enumerates [] nodes.keys := by
    rintro peer remote id session nodes _ ⟨_, _, hcommand⟩
    cases hcommand
  have henumerates : ∀ {remote : PlainPeer},
      Enumerates [remote] (known remote).allPeers.keys := by
    intro remote
    refine ⟨List.nodup_singleton _, ?_⟩
    intro k
    rw [List.mem_singleton]
    simp only [known, Peers.insert, Peers.new, FiniteMap.mem_keys_iff, FiniteMap.lookup_insert]
    by_cases hk : k = remote <;> simp [hk]
  have hstarted : Run (Guarded Transport.Step (Transport.HoldsIndex fun _ => ⟨1⟩))
      (Transport.initial ⟨1⟩ ⟨2⟩ "p" : PlainTransport) _ _ :=
    (Run.refl.tail
      ⟨by trivial, .a (plainNode_started ⟨⟨0⟩, [⟨7⟩, ⟨8⟩], by rfl⟩) (by rfl)⟩).tail
      ⟨by rfl, .b (plainNode_started ⟨⟨1⟩, [⟨7⟩, ⟨8⟩], by rfl⟩) (by rfl)⟩
  have hconnected := (hstarted.tail ⟨by trivial, .a (plainNode_opened ⟨2⟩) (by rfl)⟩).tail
    ⟨by trivial, .b (plainNode_opened ⟨1⟩) (by rfl)⟩
  have hready := (hconnected.tail ⟨by trivial, .a plainNode_retained (by rfl)⟩).tail
    ⟨by trivial, .b plainNode_retained (by rfl)⟩
  have hsent := (hready.tail
      ⟨by trivial, .a (plainNode_commanded henumerates hannounced) (by rfl)⟩).tail
    ⟨by trivial, .b (plainNode_commanded henumerates hannounced) (by rfl)⟩
  have hintroduced := (hsent.tail ⟨by trivial, .a plainNode_retained (by rfl)⟩).tail
    ⟨by trivial, .b plainNode_retained (by rfl)⟩
  exact ⟨_, hintroduced⟩

private def sentOut (arrived : SessionId → List (PlainPeer × PlainData)) : PlainTransport where
  a := plainNode ⟨1⟩ ⟨0⟩ [] (provedAs ⟨2⟩ ⟨1⟩) [] .retaining
    [.sendMessage ⟨2⟩ "p" (announcement ⟨1⟩ ⟨0⟩), .sendMessage ⟨2⟩ "p" memberData]
    (.splitNetwork ⟨0⟩) arrived
  b := introduced.b
  toA := []
  toB := [announcement ⟨1⟩ ⟨0⟩, memberData]

private theorem sentOut_run : ∃ events arrived,
    Run (Guarded Transport.Step (Transport.HoldsIndex fun _ => ⟨1⟩)) introduced events
      (sentOut arrived) := by
  have hpeers : Enumerates [⟨2⟩] (provedAs ⟨2⟩ ⟨1⟩).allPeers.keys := by decide
  have hnodes : ∀ session nodes, (provedAs ⟨2⟩ ⟨1⟩).toPeer.lookup session = some nodes →
      (∃ data recipient, (.ofData ⟨0⟩ (.aleph 42) .all :
        SessionCommand PlainPeer PlainSignature PlainData) = .ofData session data recipient) →
      Enumerates [⟨1⟩] nodes.keys := by
    rintro session nodes hlookup ⟨_, _, hcommand⟩
    cases hcommand
    cases hlookup
    decide
  have hread : TransportNode.Step (plainNode ⟨1⟩ ⟨0⟩ [] (known ⟨2⟩) []
        (.receiving ⟨2⟩ [("p", announcement ⟨2⟩ ⟨1⟩)])
        [.sendMessage ⟨2⟩ "p" (announcement ⟨1⟩ ⟨0⟩)] (.splitNetwork ⟨0⟩) noData)
      (.network (.message ⟨2⟩ "p" (announcement ⟨2⟩ ⟨1⟩)))
      (plainNode ⟨1⟩ ⟨0⟩ [] (provedAs ⟨2⟩ ⟨1⟩) [] (.receiving ⟨2⟩ [])
        [.sendMessage ⟨2⟩ "p" (announcement ⟨1⟩ ⟨0⟩)] (.splitNetwork ⟨0⟩) _) :=
    .network (by trivial) (.message (by rfl))
  have hproved : Run (Guarded Transport.Step (Transport.HoldsIndex fun _ => ⟨1⟩)) introduced _ _ :=
    (Run.refl.tail ⟨by trivial, .a (plainNode_notified ⟨2⟩ _) (by rfl)⟩).tail
      ⟨by trivial, .a hread (by rfl)⟩
  have hready := (hproved.tail ⟨by trivial, .a plainNode_done (by rfl)⟩).tail
    ⟨by trivial, .a plainNode_retained (by rfl)⟩
  have hforwarded := (hready.tail ⟨by trivial, .a plainNode_sent (by rfl)⟩).tail
    ⟨by trivial, .a plainNode_forwarded (by rfl)⟩
  have hcommanded := hforwarded.tail
    ⟨by trivial, .a (plainNode_commanded hpeers hnodes) (by rfl)⟩
  exact ⟨_, _, hcommanded⟩

private theorem passedOn_run (arrived : SessionId → List (PlainPeer × PlainData)) : ∃ events t,
    Run (Guarded Transport.Step (Transport.HoldsIndex fun _ => ⟨1⟩)) (sentOut arrived) events t ∧
    Transport.delivered NetworkData.aleph? ⟨1⟩ ⟨0⟩ t = [42] := by
  have hread : TransportNode.Step (plainNode ⟨2⟩ ⟨1⟩ [] (known ⟨1⟩) []
        (.receiving ⟨1⟩ [("p", announcement ⟨1⟩ ⟨0⟩), ("p", memberData)])
        [.sendMessage ⟨1⟩ "p" (announcement ⟨2⟩ ⟨1⟩)] (.splitNetwork ⟨0⟩) noData)
      (.network (.message ⟨1⟩ "p" (announcement ⟨1⟩ ⟨0⟩)))
      (plainNode ⟨2⟩ ⟨1⟩ [] (provedAs ⟨1⟩ ⟨0⟩) [] (.receiving ⟨1⟩ [("p", memberData)])
        [.sendMessage ⟨1⟩ "p" (announcement ⟨2⟩ ⟨1⟩)] (.splitNetwork ⟨0⟩) _) :=
    .network (by trivial) (.message (by rfl))
  have hhanded : ∀ arrived, TransportNode.Step (plainNode ⟨2⟩ ⟨1⟩ [] (provedAs ⟨1⟩ ⟨0⟩) []
        (.receiving ⟨1⟩ [("p", memberData)])
        [.sendMessage ⟨1⟩ "p" (announcement ⟨2⟩ ⟨1⟩)] (.splitNetwork ⟨0⟩) arrived)
      (.network (.message ⟨1⟩ "p" memberData))
      (plainNode ⟨2⟩ ⟨1⟩ [.aleph 42] (provedAs ⟨1⟩ ⟨0⟩) [] (.receiving ⟨1⟩ [])
        [.sendMessage ⟨1⟩ "p" (announcement ⟨2⟩ ⟨1⟩)] (.splitNetwork ⟨0⟩) _) :=
    fun _ => .network (by trivial) (.message (by rfl))
  have hruns : ∀ arrived, (plainNode ⟨2⟩ ⟨1⟩ [.aleph 42] (provedAs ⟨1⟩ ⟨0⟩) [] (.receiving ⟨1⟩ [])
      [.sendMessage ⟨1⟩ "p" (announcement ⟨2⟩ ⟨1⟩)] (.splitNetwork ⟨0⟩) arrived).splits.lookup ⟨0⟩ =
      some (.splitNetwork ⟨0⟩) := fun _ => rfl
  have hpassed : ∀ arrived, ∃ node, TransportNode.Step
      (plainNode ⟨2⟩ ⟨1⟩ [.aleph 42] (provedAs ⟨1⟩ ⟨0⟩) [] (.receiving ⟨1⟩ [])
        [.sendMessage ⟨1⟩ "p" (announcement ⟨2⟩ ⟨1⟩)] (.splitNetwork ⟨0⟩) arrived)
      (.dataForwarded ⟨0⟩ ((arrived ⟨0⟩).head?.map Prod.fst) (.aleph 42)) node ∧
      node.forwarded ⟨0⟩ = [((arrived ⟨0⟩).head?.map Prod.fst, .aleph 42)] :=
    fun _ => ⟨_, .dataForwarded (hruns _) (by rfl) (by rfl) (by rfl), by rfl⟩
  have hnotified : Run (Guarded Transport.Step (Transport.HoldsIndex fun _ => ⟨1⟩))
      (sentOut arrived) _ _ :=
    Run.refl.tail ⟨by trivial, .b (plainNode_notified ⟨1⟩
      [("p", announcement ⟨1⟩ ⟨0⟩), ("p", memberData)]) (by rfl)⟩
  have harrived := (hnotified.tail ⟨by trivial, .b hread (by rfl)⟩).tail
    ⟨by trivial, .b (hhanded _) (by rfl)⟩
  obtain ⟨_, hforward, hforwarded⟩ := hpassed _
  refine ⟨_, _, harrived.tail ⟨by trivial, .b hforward (by rfl)⟩, ?_⟩
  rw [Transport.delivered, hforwarded]
  rfl

private theorem delivering_run : ∃ events t,
    Run (Guarded Transport.Step (Transport.HoldsIndex fun _ => ⟨1⟩))
      (Transport.initial ⟨1⟩ ⟨2⟩ "p" : PlainTransport) events t ∧
    Transport.delivered NetworkData.aleph? ⟨1⟩ ⟨0⟩ t = [42] := by
  obtain ⟨first, hintroduced⟩ := introduced_run
  obtain ⟨second, arrived, hsent⟩ := sentOut_run
  obtain ⟨third, t, hpassed, hdelivered⟩ := passedOn_run arrived
  have hrun := Run.append_iff.mpr ⟨_, hintroduced, Run.append_iff.mpr ⟨_, hsent, hpassed⟩⟩
  exact ⟨_, t, hrun, hdelivered⟩

theorem Transport.sessions_isolated_delivered : ∃ events t,
    Run (Guarded Transport.Step (Transport.HoldsIndex fun _ => ⟨1⟩))
      (Transport.initial ⟨1⟩ ⟨2⟩ "p" : Transport PlainPeer PlainKey PlainSignature UInt8 UInt8)
      events t ∧
    Transport.delivered NetworkData.aleph? ⟨1⟩ ⟨0⟩ t = [42] ∧
    [42].Sublist (events.reverse.filterMap (Transport.sent NetworkData.aleph? ⟨0⟩ ⟨1⟩)) := by
  have hplain : ∀ data : UInt8, Codec.decode (Codec.encode data) = some (data, []) := fun _ => rfl
  have hindex : ∀ _ : SessionId, Codec.ReadsBack (⟨1⟩ : NodeIndex) := by
    intro _ rest
    show (Codec.decodeFixed 8 (Codec.encodeFixed 8 1 ++ rest)).map _ = _
    rw [Codec.decodeFixed_encodeFixed]
    rfl
  obtain ⟨events, t, hrun, hdelivered⟩ := delivering_run
  have hisolated := (Transport.sessions_isolated hplain hplain hindex hrun ⟨0⟩).1
  rw [hdelivered] at hisolated
  exact ⟨events, t, hrun, hdelivered, hisolated⟩

end Example
end AlephNode
