import AlephNode.MessageRoundTrips
import AlephNode.SessionTransport

/-!
# Nodes that announce their own index

A node that takes part in every session with one index of this session announces itself
with this index only, and so does what it sends. A node that hears from the peer only what
such a node has said never lets the peer stand for another index.
-/
namespace AlephNode.ConsensusNetwork
open TransportNode

def NamesOwn {PeerId S : Type} (index : SessionId → NodeIndex) : MetaMessage PeerId S → Prop
  | .authentication authData _ => authData.nodeId = index authData.sessionId
  | .authenticationRequest _ => True

/-- The messages of the notification in hand that are still to be read, if it is from the
peer. -/
def heard {PeerId : Type} [DecidableEq PeerId] (protocol : String) (peer : PeerId) :
    Loop PeerId → List (List UInt8)
  | .receiving remote messages =>
    if remote = peer then (messages.filter (fun message => message.1 = protocol)).map Prod.snd
    else []
  | _ => []

def taken {PeerId A S D : Type} [DecidableEq PeerId] (protocol : String) (peer : PeerId) :
    Event PeerId A S D → List (List UInt8)
  | .notificationsReceived remote messages => heard protocol peer (.receiving remote messages)
  | _ => []

def read {PeerId A S D : Type} [DecidableEq PeerId] (protocol : String) (peer : PeerId) :
    Event PeerId A S D → List (List UInt8)
  | .message remote protocol' raw => heard protocol peer (.receiving remote [(protocol', raw)])
  | _ => []

/-- The bytes are those of a message that names no other index. -/
def Says (PeerId S D : Type) [PeerIdBytes PeerId] [Codec NodeIndex] [Codec S] [Codec D]
    (index : SessionId → NodeIndex) (raw : List UInt8) : Prop :=
  ∃ message : InternalMessage PeerId S D, raw = Codec.encode message ∧
    ∀ m, message = .ofMeta m → NamesOwn index m

section OwnAnnouncements
variable {PeerId A S D : Type} [DecidableEq PeerId] [PeerIdBytes PeerId] [SignatureScheme A S]
  [Codec NodeIndex] [Codec S] [Codec D]

/-- The node has announced and is going to announce its own index only. -/
structure Announces (index : SessionId → NodeIndex) (task : Task PeerId A S D) : Prop where
  sessions : ∀ session sessionData, task.network.sessions.lookup session = some sessionData →
    NamesOwn index (announcement sessionData)
  starting : ∀ message ∈ task.starting, NamesOwn index message
  queued : ∀ message recipient, .ofMeta message recipient ∈ task.network.commands.messages →
    NamesOwn index message

def StandsForOwn (index : SessionId → NodeIndex) (peer : PeerId) (task : Task PeerId A S D) :
    Prop :=
  ∀ session node, task.network.peers.get session node = some peer → node = index session

variable {task task' : Task PeerId A S D} {event : Event PeerId A S D} {peer : PeerId}
  {index : SessionId → NodeIndex} {protocol : String}

/-- What is read and what is left to be read was there or has just been taken. -/
theorem heard_step (hstep : Step task event task') :
    read protocol peer event ++ heard protocol peer task'.loop =
      heard protocol peer task.loop ++ taken protocol peer event := by
  cases hstep with
  | message | otherMessage =>
    simp only [read, heard, taken, List.filter_cons]
    split
    · split <;> simp
    · simp
  | notificationsReceived => simp [read, heard, taken]
  | _ => simp [read, heard, taken]

omit [DecidableEq PeerId] [PeerIdBytes PeerId] [SignatureScheme A S] [Codec NodeIndex] [Codec S]
  [Codec D] in
theorem announces_initial {localPeerId : PeerId} :
    Announces index (Task.initial localPeerId protocol : Task PeerId A S D) where
  sessions _ _ h := by simp [Task.initial, new] at h
  starting _ h := by simp [Task.initial] at h
  queued _ _ h := by simp [Task.initial, new, Channel.unbounded] at h

/-- A node that starts its sessions with its own indices goes on announcing these. -/
theorem Announces.step (h : Announces index task) (hstep : Step task event task')
    (hindex : ∀ session keychain, event = .sessionStarted session keychain →
      keychain.id = index session) : Announces index task' := by
  have hstarting : ∀ message ∈ task'.starting, NamesOwn index message := by
    intro message hmessage
    obtain hbefore | ⟨session, keychain, signature, hevent, rfl⟩ := started_cases hstep hmessage
    · exact h.starting message hbefore
    · exact hindex session keychain hevent
  refine ⟨?_, hstarting, ?_⟩
  · intro session sessionData hlookup
    obtain ⟨old, hold, hsame⟩ | hnew := announcement_cases hstep hlookup
    · rw [hsame]
      exact h.sessions session old hold
    · exact hstarting _ hnew
  · intro message recipient hqueued
    obtain ⟨later, _, hlater, hqueues, _⟩ | ⟨command, _, _, _, hnext, _⟩ := queue_cases hstep
    · rw [hlater, List.mem_append] at hqueued
      obtain hbefore | hnew := hqueued
      · exact h.queued message recipient hbefore
      · cases hqueues _ hnew with
        | announced known => exact h.sessions _ _ known
        | requested => trivial
        | broadcast starting => exact h.starting _ starting
    · exact h.queued message recipient (hnext ▸ List.mem_cons_of_mem _ hqueued)

omit [SignatureScheme A S] [DecidableEq PeerId] in
private theorem onCommand_says {peerOrder : List PeerId} {nodeOrder : List NodeIndex}
    {command : SessionCommand PeerId S D} {net : ConsensusNetwork PeerId A S D}
    (hcommand : ∀ message recipient, command = .ofMeta message recipient → NamesOwn index message) :
    ∀ call ∈ net.onCommand peerOrder nodeOrder command, ∃ message remote,
      call = net.sendMessage message remote ∧ ∀ m, message = .ofMeta m → NamesOwn index m := by
  intro call hcall
  cases command with
  | ofMeta message recipient =>
    have hown : ∀ m, (.ofMeta message : InternalMessage PeerId S D) = .ofMeta m →
        NamesOwn index m := by
      intro m hm
      cases hm
      exact hcommand message recipient rfl
    cases recipient with
    | all =>
      obtain ⟨remote, _, rfl⟩ := List.mem_map.mp hcall
      exact ⟨_, remote, rfl, hown⟩
    | target remote => exact ⟨_, remote, List.mem_singleton.mp hcall, hown⟩
  | ofData session data recipient =>
    cases recipient with
    | all =>
      obtain ⟨remote, _, rfl⟩ := List.mem_map.mp hcall
      exact ⟨_, remote, rfl, nofun⟩
    | target node =>
      simp only [onCommand] at hcall
      split at hcall
      · next remote _ => exact ⟨_, remote, List.mem_singleton.mp hcall, nofun⟩
      · cases hcall

omit [PeerIdBytes PeerId] [Codec NodeIndex] in
theorem mem_sentTo {raw : List UInt8} {calls : List (NetworkCall PeerId)} :
    raw ∈ sentTo peer calls ↔ ∃ protocol, .sendMessage peer protocol raw ∈ calls := by
  unfold sentTo
  rw [List.mem_filterMap]
  constructor
  · rintro ⟨call, hmem, hcall⟩
    cases call with
    | sendMessage remote protocol message =>
      simp only [Option.ite_none_right_eq_some, Option.some.injEq] at hcall
      obtain ⟨rfl, rfl⟩ := hcall
      exact ⟨protocol, hmem⟩
    | addSetReserved => cases hcall
    | removeSetReserved => cases hcall
  · rintro ⟨protocol, hmem⟩
    exact ⟨_, hmem, by simp⟩

theorem Announces.says (h : Announces index task) (hstep : Step task event task') {raw : List UInt8}
    (hraw : raw ∈ sentTo peer (task'.calls.drop task.calls.length)) : Says PeerId S D index raw := by
  obtain ⟨protocol', hcall⟩ := mem_sentTo.mp hraw
  obtain ⟨_, new, _, _, hcalls, hnone⟩ | ⟨command, _, _, _, hnext, _, _, hcalls⟩ :=
    queue_cases hstep
  · rw [hcalls, List.drop_left] at hcall
    exact absurd hcall (hnone _ _ _)
  · rw [hcalls, List.drop_left] at hcall
    have hcommand : ∀ message recipient, command = .ofMeta message recipient →
        NamesOwn index message := by
      intro message recipient hcommand
      exact h.queued message recipient (hnext ▸ hcommand ▸ List.mem_cons_self)
    obtain ⟨message, remote, hsend, hown⟩ := onCommand_says hcommand _ hcall
    cases hsend
    exact ⟨message, rfl, hown⟩

/-- A peer that says its own index only is not taken for another one. -/
theorem StandsForOwn.step [LawfulPeerIdBytes PeerId]
    (hindex : ∀ session, Codec.ReadsBack (index session))
    (h : StandsForOwn index peer task) (hstep : Step task event task')
    (hheard : ∀ raw ∈ read task.network.protocol peer event, Says PeerId S D index raw) :
    StandsForOwn index peer task' := by
  intro session node hget
  obtain hbefore | ⟨raw, rfl, signature, rest, _, _, hdecode, _⟩ := named_cases hstep hget
  · exact h session node hbefore
  · obtain ⟨message, rfl, hown⟩ := hheard raw (by simp [read, heard])
    have hnode : ∀ authData signature, message = .ofMeta (.authentication authData signature) →
        Codec.ReadsBack authData.nodeId := by
      intro authData signature hmessage
      have hsame : authData.nodeId = index authData.sessionId := hown _ hmessage
      rw [hsame]
      exact hindex _
    obtain ⟨signature', rfl⟩ := sent_of_decode_authentication hdecode hnode
    exact hown _ rfl

end OwnAnnouncements
end AlephNode.ConsensusNetwork
