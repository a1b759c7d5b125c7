import AlephNode.PeerHandshakes
import AlephNode.SessionIsolation

/-!
# Mutual authentication

Two nodes with a stream between them take part in a session. The one that starts it later, or
whose stream opens later, announces itself to a node that knows the session; the other one is
asked for its announcement when its first data comes in. So when nothing is under way, one of
them knows the other, and each knows the other after it has got data from it.
-/
namespace AlephNode
namespace Transport
open TransportNode
open ConsensusNetwork (heard UnderWay Certifies)
variable {PeerId A S Aleph Rmc : Type}

def swap (t : Transport PeerId A S Aleph Rmc) : Transport PeerId A S Aleph Rmc :=
  ⟨t.b, t.a, t.toB, t.toA⟩

def Event.swap : Event PeerId A S Aleph Rmc → Event PeerId A S Aleph Rmc
  | .a event => .b event
  | .b event => .a event
  | .lost => .lost

variable [DecidableEq PeerId]

/-- What the second node has not read of what the first one has sent. -/
def unread (t : Transport PeerId A S Aleph Rmc) : List (List UInt8) :=
  heard t.b.task.network.protocol t.a.task.network.localPeerId t.b.task.loop ++ t.toB

/-- No message is under way between the nodes, and no command is queued. -/
structure Quiet (t : Transport PeerId A S Aleph Rmc) : Prop where
  unreadB : t.unread = []
  unreadA : t.swap.unread = []
  commandsA : t.a.task.network.commands.messages = []
  commandsB : t.b.task.network.commands.messages = []
  startingA : t.a.task.starting = []
  startingB : t.b.task.starting = []

theorem Quiet.swap {t : Transport PeerId A S Aleph Rmc} (h : Quiet t) : Quiet t.swap :=
  ⟨h.unreadA, h.unreadB, h.commandsB, h.commandsA, h.startingB, h.startingA⟩

structure Ready (session : SessionId) (t : Transport PeerId A S Aleph Rmc) : Prop where
  openA : t.b.task.network.localPeerId ∈ t.a.task.network.peers.allPeers.keys
  openB : t.a.task.network.localPeerId ∈ t.b.task.network.peers.allPeers.keys
  sessionA : t.a.task.network.sessions.lookup session ≠ none
  sessionB : t.b.task.network.sessions.lookup session ≠ none

omit [DecidableEq PeerId] in
theorem Ready.swap {session : SessionId} {t : Transport PeerId A S Aleph Rmc}
    (h : Ready session t) : Ready session t.swap :=
  ⟨h.openB, h.openA, h.sessionB, h.sessionA⟩

def Running (t : Transport PeerId A S Aleph Rmc) : Prop :=
  t.a.task.loop ≠ .ended ∧ t.b.task.loop ≠ .ended

/-- The streams of both nodes are open, and both have started the session. -/
structure Bound (session : SessionId) (t : Transport PeerId A S Aleph Rmc) : Prop where
  openA : t.b.task.network.localPeerId ∈ t.a.task.network.peers.allPeers.keys
  openB : t.a.task.network.localPeerId ∈ t.b.task.network.peers.allPeers.keys
  splitA : t.a.splits.lookup session ≠ none
  splitB : t.b.splits.lookup session ≠ none

omit [DecidableEq PeerId] in
theorem Bound.swap {session : SessionId} {t : Transport PeerId A S Aleph Rmc}
    (h : Bound session t) : Bound session t.swap :=
  ⟨h.openB, h.openA, h.splitB, h.splitA⟩

def Knows (session : SessionId) (t : Transport PeerId A S Aleph Rmc) : Prop :=
  t.b.task.network.peers.isAuthenticated t.a.task.network.localPeerId session = true

variable [PeerIdBytes PeerId] [SignatureScheme A S] [Codec NodeIndex]
  [Codec S] [Codec Aleph] [Codec Rmc]

/-- The streams are kept, nothing is lost on them, and sessions are started with the key boxes
of the nodes. -/
def Linked (authoritiesOf : SessionId → List A) (indexA indexB : SessionId → NodeIndex)
    (t : Transport PeerId A S Aleph Rmc) : Event PeerId A S Aleph Rmc → Prop
  | .a event => Keeps authoritiesOf indexA t.b.task.network.localPeerId t.a event
  | .b event => Keeps authoritiesOf indexB t.a.task.network.localPeerId t.b event
  | .lost => False

/-- The second node knows the first one, or an announcement is under way to it. -/
def Joins (authoritiesOf : SessionId → List A) (index : SessionId → NodeIndex) (session : SessionId)
    (t : Transport PeerId A S Aleph Rmc) : Prop :=
  Knows session t ∨ ∃ message,
    Certifies authoritiesOf index t.a.task.network.localPeerId session message ∧
      UnderWay t.b.task.network.localPeerId t.a.task t.unread message

/-- The second node has data of the session to read from the first one, or it asks for an
announcement, or one is under way. -/
def Asks (authoritiesOf : SessionId → List A) (index : SessionId → NodeIndex) (session : SessionId)
    (t : Transport PeerId A S Aleph Rmc) : Prop :=
  (∃ data : NetworkData Aleph Rmc, ∃ raw ∈ t.unread, ∃ rest, Codec.decode raw =
      some ((.ofData session data : InternalMessage PeerId S (NetworkData Aleph Rmc)), rest)) ∨
    UnderWay t.a.task.network.localPeerId t.b.task t.swap.unread
      (.authenticationRequest session) ∨
    Joins authoritiesOf index session t

def SendsData (session : SessionId) (t t' : Transport PeerId A S Aleph Rmc) : Prop :=
  ∃ data, Codec.encode (.ofData session data : InternalMessage PeerId S (NetworkData Aleph Rmc)) ∈
    outgoing t.b.task.network.localPeerId t.a t'.a

structure Hosted (authoritiesOf : SessionId → List A) (indexA indexB : SessionId → NodeIndex)
    (t : Transport PeerId A S Aleph Rmc) : Prop where
  a : Hosts authoritiesOf indexA t.b.task.network.localPeerId t.a
  b : Hosts authoritiesOf indexB t.a.task.network.localPeerId t.b

/-- The first node moves: it sends on one link and reads from the other. -/
structure Moves (t : Transport PeerId A S Aleph Rmc) (event : TransportNode.Event PeerId A S Aleph Rmc)
    (t' : Transport PeerId A S Aleph Rmc) : Prop where
  step : TransportNode.Step t.a event t'.a
  other : t'.b = t.b
  sends : t'.unread = t.unread ++ outgoing t.b.task.network.localPeerId t.a t'.a
  reads : read t.a.task.network.protocol t.b.task.network.localPeerId event ++ t'.swap.unread =
    t.swap.unread
  localPeerId : t'.a.task.network.localPeerId = t.a.task.network.localPeerId

section Steps
variable {authoritiesOf : SessionId → List A} {indexA indexB : SessionId → NodeIndex}
  {t t' : Transport PeerId A S Aleph Rmc} {event : Event PeerId A S Aleph Rmc}
  {session : SessionId}

theorem Step.swap (h : Step t event t') : Step t.swap event.swap t'.swap := by
  cases h with
  | a step takes => exact .b step takes
  | b step takes => exact .a step takes
  | lost keptA keptB => exact .lost keptB keptA

omit [DecidableEq PeerId] [PeerIdBytes PeerId] [SignatureScheme A S] [Codec NodeIndex]
  [Codec S] [Codec Aleph] [Codec Rmc] in
theorem Linked.swap (h : Linked authoritiesOf indexA indexB t event) :
    Linked authoritiesOf indexB indexA t.swap event.swap := by
  cases event with
  | a => exact h
  | b => exact h
  | lost => exact h

omit [DecidableEq PeerId] [Codec S] [Codec Aleph] [Codec Rmc] in
theorem Hosted.swap (h : Hosted authoritiesOf indexA indexB t) :
    Hosted authoritiesOf indexB indexA t.swap :=
  ⟨h.b, h.a⟩

theorem moves_of_step {e : TransportNode.Event PeerId A S Aleph Rmc}
    (h : Hosted authoritiesOf indexA indexB t) (hstep : Step t (.a e) t') : Moves t e t' := by
  cases hstep with
  | @a e a' toA' step takes =>
    have hmove := task_cases h.a.splits step
    have hlocal := hmove.localPeerId
    have hheard : read t.a.task.network.protocol t.b.task.network.localPeerId e ++
        heard t.a.task.network.protocol t.b.task.network.localPeerId a'.task.loop =
          heard t.a.task.network.protocol t.b.task.network.localPeerId t.a.task.loop ++
            taken t.a.task.network.protocol t.b.task.network.localPeerId e := hmove.heard
    refine ⟨step, rfl, ?_, ?_, hlocal⟩
    · simp only [unread, hlocal, List.append_assoc]
    · simp only [unread, Transport.swap, hmove.protocol]
      rw [takes_eq takes, ← List.append_assoc, hheard, List.append_assoc]

theorem linked_cases (h : Hosted authoritiesOf indexA indexB t)
    (hlinked : Linked authoritiesOf indexA indexB t event) (hstep : Step t event t') :
    (∃ e, Moves t e t' ∧ Keeps authoritiesOf indexA t.b.task.network.localPeerId t.a e) ∨
      ∃ e, Moves t.swap e t'.swap ∧
        Keeps authoritiesOf indexB t.a.task.network.localPeerId t.b e := by
  cases event with
  | a e => exact .inl ⟨e, moves_of_step h hstep, hlinked⟩
  | b e => exact .inr ⟨e, moves_of_step h.swap hstep.swap, hlinked⟩
  | lost => exact hlinked.elim

theorem Moves.hosted {e : TransportNode.Event PeerId A S Aleph Rmc} (hmoves : Moves t e t')
    (hkeeps : Keeps authoritiesOf indexA t.b.task.network.localPeerId t.a e)
    (h : Hosted authoritiesOf indexA indexB t) : Hosted authoritiesOf indexA indexB t' := by
  have ha := hosts_step h.a hkeeps hmoves.step
  have hb := h.b
  rw [← hmoves.other] at ha hb
  rw [← hmoves.localPeerId] at hb
  exact ⟨ha, hb⟩

/-- What is under way from the first node stays so when the first node moves. -/
theorem Moves.underWay {e : TransportNode.Event PeerId A S Aleph Rmc} (hmoves : Moves t e t')
    (hkeeps : Keeps authoritiesOf indexA t.b.task.network.localPeerId t.a e)
    (h : Hosted authoritiesOf indexA indexB t)
    (hopen : t.b.task.network.localPeerId ∈ t.a.task.network.peers.allPeers.keys)
    (hrunning : t'.a.task.loop ≠ .ended) {message : MetaMessage PeerId S}
    (hmeant : UnderWay t.b.task.network.localPeerId t.a.task t.unread message) :
    UnderWay t'.b.task.network.localPeerId t'.a.task t'.unread message := by
  rw [hmoves.other, hmoves.sends]
  exact underWay_kept h.a hkeeps hmoves.step hopen hrunning hmeant

theorem Moves.joins {e : TransportNode.Event PeerId A S Aleph Rmc} (hmoves : Moves t e t')
    (hkeeps : Keeps authoritiesOf indexA t.b.task.network.localPeerId t.a e)
    (h : Hosted authoritiesOf indexA indexB t)
    (hopen : t.b.task.network.localPeerId ∈ t.a.task.network.peers.allPeers.keys)
    (hrunning : t'.a.task.loop ≠ .ended) (hjoins : Joins authoritiesOf indexA session t) :
    Joins authoritiesOf indexA session t' := by
  rcases hjoins with hknows | ⟨message, hcertifies, hmeant⟩
  · left
    rw [Knows, hmoves.other, hmoves.localPeerId]
    exact hknows
  · refine .inr ⟨message, ?_, hmoves.underWay hkeeps h hopen hrunning hmeant⟩
    rw [hmoves.localPeerId]
    exact hcertifies

/-- A message that the first node reads is one of its network. -/
theorem Moves.reads_message {e : TransportNode.Event PeerId A S Aleph Rmc} (hmoves : Moves t e t')
    {raw : List UInt8}
    (hraw : raw ∈ read t.a.task.network.protocol t.b.task.network.localPeerId e) :
    ConsensusNetwork.Step t.a.task
      (.message t.b.task.network.localPeerId t.a.task.network.protocol raw) t'.a.task := by
  have hstep := hmoves.step
  cases e with
  | network event =>
    rw [ConsensusNetwork.mem_read.mp hraw] at hstep
    generalize t'.a = node' at hstep
    cases hstep with
    | network outside step => exact step
  | _ => cases hraw

section Readings
variable [LawfulPeerIdBytes PeerId] [LawfulIndexCodec] [LawfulCodec S]

/-- What is under way to the first node is read by it, or it stays under way. -/
theorem Moves.joins_swap {e : TransportNode.Event PeerId A S Aleph Rmc} (hmoves : Moves t e t')
    (hkeys : ∀ (key : A) msg, SignatureScheme.verify key msg (SignatureScheme.sign key msg : S) = true)
    (hindex : (indexB session).IsUsize)
    (hkeeps : Keeps authoritiesOf indexA t.b.task.network.localPeerId t.a e)
    (h : Hosted authoritiesOf indexA indexB t)
    (hopen : t.b.task.network.localPeerId ∈ t.a.task.network.peers.allPeers.keys)
    (hsession : t.a.task.network.sessions.lookup session ≠ none)
    (hjoins : Joins authoritiesOf indexB session t.swap) :
    Joins authoritiesOf indexB session t'.swap := by
  have hknows : t'.a.task.network.peers.isAuthenticated t.b.task.network.localPeerId session =
      true → Knows session t'.swap := by
    intro hknows
    show t'.a.task.network.peers.isAuthenticated t'.b.task.network.localPeerId session = true
    rw [hmoves.other]
    exact hknows
  rcases hjoins with hbefore | ⟨message, hcertifies, hmeant⟩
  · exact .inl (hknows (authenticated_kept h.a hkeeps hmoves.step hopen hbefore))
  · rcases hmeant.reads hmoves.reads with hmeant | hread
    · refine .inr ⟨message, ?_, ?_⟩
      · show Certifies authoritiesOf indexB t'.b.task.network.localPeerId session message
        rw [hmoves.other]
        exact hcertifies
      · show UnderWay t'.a.task.network.localPeerId t'.b.task t'.swap.unread message
        rw [hmoves.other, hmoves.localPeerId]
        exact hmeant
    · have hstep := hmoves.reads_message hread
      exact .inl (hknows (ConsensusNetwork.announcement_read hkeys hindex h.a.registered hsession
        hcertifies hstep))

/-- The first node moves while the second one has data or a request of the first one to read. -/
theorem Moves.asks {e : TransportNode.Event PeerId A S Aleph Rmc} (hmoves : Moves t e t')
    (hkeeps : Keeps authoritiesOf indexA t.b.task.network.localPeerId t.a e)
    (h : Hosted authoritiesOf indexA indexB t) (hready : Ready session t)
    (hrunning : t'.a.task.loop ≠ .ended) (hasks : Asks authoritiesOf indexA session t) :
    Asks authoritiesOf indexA session t' := by
  rcases hasks with ⟨data, raw, hraw, rest, hdecode⟩ | hrequest | hjoins
  · refine .inl ⟨data, raw, ?_, rest, hdecode⟩
    rw [hmoves.sends]
    exact List.mem_append_left _ hraw
  · rcases hrequest.reads hmoves.reads with hmeant | hread
    · right
      left
      rw [hmoves.other, hmoves.localPeerId]
      exact hmeant
    · have hstep := hmoves.reads_message hread
      have halive := h.a.alive (ConsensusNetwork.ended_step hstep hrunning)
      obtain ⟨message, hcertifies, hqueued⟩ :=
        ConsensusNetwork.request_read h.a.registered hready.sessionA halive hstep
      refine .inr (.inr (.inr ⟨message, ?_, .inl (.queuedForPeer ?_)⟩))
      · rw [hmoves.localPeerId]
        exact hcertifies
      · rw [hmoves.other]
        exact hqueued
  · exact .inr (.inr (hmoves.joins hkeeps h hready.openA hrunning hjoins))

/-- The first node moves while it has data of the second one to read, or asks for an
announcement. -/
theorem Moves.asks_swap {e : TransportNode.Event PeerId A S Aleph Rmc} (hmoves : Moves t e t')
    (hkeys : ∀ (key : A) msg, SignatureScheme.verify key msg (SignatureScheme.sign key msg : S) = true)
    (hindex : (indexB session).IsUsize)
    (hkeeps : Keeps authoritiesOf indexA t.b.task.network.localPeerId t.a e)
    (h : Hosted authoritiesOf indexA indexB t) (hready : Ready session t)
    (hrunning : t'.a.task.loop ≠ .ended) (hasks : Asks authoritiesOf indexB session t.swap) :
    Asks authoritiesOf indexB session t'.swap := by
  rcases hasks with ⟨data, raw, hraw, rest, hdecode⟩ | hrequest | hjoins
  · rw [← hmoves.reads] at hraw
    rcases List.mem_append.mp hraw with hread | hunread
    · have hstep := hmoves.reads_message hread
      have halive := h.a.alive (ConsensusNetwork.ended_step hstep hrunning)
      rcases ConsensusNetwork.data_read hdecode halive hstep with hknows | hqueued
      · refine .inr (.inr (.inl ?_))
        show t'.a.task.network.peers.isAuthenticated t'.b.task.network.localPeerId session = true
        rw [hmoves.other]
        exact hknows
      · refine .inr (.inl (.inl (.queuedForPeer ?_)))
        show _ ∈ t'.a.task.network.commands.messages
        rw [show t'.swap.a = t.b from hmoves.other]
        exact hqueued
    · exact .inl ⟨data, raw, hunread, rest, hdecode⟩
  · exact .inr (.inl (hmoves.underWay hkeeps h hready.openA hrunning hrequest))
  · exact .inr (.inr (hmoves.joins_swap hkeys hindex hkeeps h hready.openA hready.sessionA hjoins))

end Readings
theorem Moves.running {e : TransportNode.Event PeerId A S Aleph Rmc} (hmoves : Moves t e t')
    (hkeeps : Keeps authoritiesOf indexA t.b.task.network.localPeerId t.a e)
    (h : Hosted authoritiesOf indexA indexB t) (hrunning : Running t') : Running t := by
  refine ⟨?_, hmoves.other ▸ hrunning.2⟩
  rcases kept_cases hkeeps (task_cases h.a.splits hmoves.step) with
    ⟨event, hnetwork, _⟩ | ⟨sessions, htask, _⟩
  · exact ConsensusNetwork.ended_step hnetwork hrunning.1
  · have hloop := hrunning.1
    rw [htask] at hloop
    exact hloop

omit [DecidableEq PeerId] [Codec S] [Codec Aleph] [Codec Rmc] in
theorem Ready.bound (h : Ready session t) (hhosted : Hosted authoritiesOf indexA indexB t) :
    Bound session t :=
  ⟨h.openA, h.openB, hhosted.a.started session h.sessionA, hhosted.b.started session h.sessionB⟩

theorem Moves.bound {e : TransportNode.Event PeerId A S Aleph Rmc} (hmoves : Moves t e t')
    (hkeeps : Keeps authoritiesOf indexA t.b.task.network.localPeerId t.a e)
    (h : Hosted authoritiesOf indexA indexB t) (hbound : Bound session t) : Bound session t' := by
  obtain ⟨hopenA, hopenB, hsplitA, hsplitB⟩ := hbound
  refine ⟨?_, ?_, splits_kept hmoves.step hsplitA, hmoves.other ▸ hsplitB⟩
  · rw [hmoves.other]
    exact open_kept h.a hkeeps hmoves.step hopenA
  · rw [hmoves.other, hmoves.localPeerId]
    exact hopenB

/-- A session that both nodes have started once does not come back. -/
theorem Moves.ready {e : TransportNode.Event PeerId A S Aleph Rmc} (hmoves : Moves t e t')
    (hbound : Bound session t) (hready : Ready session t') : Ready session t := by
  refine ⟨hbound.openA, hbound.openB, ?_, hmoves.other ▸ hready.sessionB⟩
  intro hnone
  exact hbound.splitA (session_new hmoves.step hready.sessionA hnone).1

/-- The node whose move makes both ready announces the session. -/
theorem Moves.joins_new {e : TransportNode.Event PeerId A S Aleph Rmc} (hmoves : Moves t e t')
    (hkeeps : Keeps authoritiesOf indexA t.b.task.network.localPeerId t.a e)
    (h : Hosted authoritiesOf indexA indexB t) (hrunning : t'.a.task.loop ≠ .ended)
    (hready : Ready session t') (hbefore : ¬Ready session t) :
    Joins authoritiesOf indexA session t' := by
  have hopen := hready.openA
  have hopenB := hready.openB
  have hsessionB := hready.sessionB
  rw [hmoves.other] at hopen hopenB hsessionB
  rw [hmoves.localPeerId] at hopenB
  right
  rw [hmoves.other]
  apply underWay_new h.a hkeeps hmoves.step hrunning _ hopen hready.sessionA
  intro hknown
  by_contra hsession
  exact hbefore ⟨hknown, hopenB, hsession, hsessionB⟩

end Steps

section Runs
variable {authoritiesOf : SessionId → List A} {indexA indexB : SessionId → NodeIndex}
  {peerA peerB : PeerId} {protocol : String} {t t' : Transport PeerId A S Aleph Rmc}
  {event : Event PeerId A S Aleph Rmc} {events : List (Event PeerId A S Aleph Rmc)}
  {session : SessionId}

omit [DecidableEq PeerId] [Codec S] [Codec Aleph] [Codec Rmc] in
theorem hosted_initial : Hosted authoritiesOf indexA indexB
    (initial peerA peerB protocol : Transport PeerId A S Aleph Rmc) := by
  have hhosts : ∀ index (peer localPeerId : PeerId), Hosts authoritiesOf index peer
      (.initial localPeerId protocol : TransportNode PeerId A S Aleph Rmc) := by
    intro index peer localPeerId
    refine ⟨?_, ?_, fun _ => rfl, nofun, ?_⟩
    · intro session split h
      simp [TransportNode.initial] at h
    · intro session sessionData h
      simp [TransportNode.initial, ConsensusNetwork.Task.initial, ConsensusNetwork.new] at h
    · intro session h
      simp [TransportNode.initial, ConsensusNetwork.Task.initial, ConsensusNetwork.new] at h
  exact ⟨hhosts _ _ _, hhosts _ _ _⟩

theorem hosted_step (h : Hosted authoritiesOf indexA indexB t)
    (hstep : Guarded Step (Linked authoritiesOf indexA indexB) t event t') :
    Hosted authoritiesOf indexA indexB t' := by
  rcases linked_cases h hstep.1 hstep.2 with ⟨e, hmoves, hkeeps⟩ | ⟨e, hmoves, hkeeps⟩
  · exact hmoves.hosted hkeeps h
  · exact (hmoves.hosted hkeeps h.swap).swap

theorem hosted_of_run (hrun : Run (Guarded Step (Linked authoritiesOf indexA indexB))
      (initial peerA peerB protocol : Transport PeerId A S Aleph Rmc) events t) :
    Hosted authoritiesOf indexA indexB t :=
  hrun.invariant (Hosted authoritiesOf indexA indexB) hosted_initial
    (fun _ _ _ h hstep => hosted_step h hstep)

theorem running_step (h : Hosted authoritiesOf indexA indexB t)
    (hstep : Guarded Step (Linked authoritiesOf indexA indexB) t event t') (hrunning : Running t') :
    Running t := by
  rcases linked_cases h hstep.1 hstep.2 with ⟨e, hmoves, hkeeps⟩ | ⟨e, hmoves, hkeeps⟩
  · exact hmoves.running hkeeps h hrunning
  · have hbefore := hmoves.running hkeeps h.swap ⟨hrunning.2, hrunning.1⟩
    exact ⟨hbefore.2, hbefore.1⟩

section Readings
variable [LawfulPeerIdBytes PeerId] [LawfulIndexCodec] [LawfulCodec S]
  (hkeys : ∀ (key : A) msg, SignatureScheme.verify key msg (SignatureScheme.sign key msg : S) = true)
  (hindexA : ∀ session, (indexA session).IsUsize) (hindexB : ∀ session, (indexB session).IsUsize)
include hkeys hindexA hindexB

/-- When both are ready, one of them is known to the other or is going to be. -/
theorem joined_step (h : Hosted authoritiesOf indexA indexB t)
    (hstep : Guarded Step (Linked authoritiesOf indexA indexB) t event t') (hrunning : Running t')
    (hbefore : Ready session t →
      Joins authoritiesOf indexA session t ∨ Joins authoritiesOf indexB session t.swap)
    (hready' : Ready session t') :
    Joins authoritiesOf indexA session t' ∨ Joins authoritiesOf indexB session t'.swap := by
  by_cases hready : Ready session t
  · have hjoins := hbefore hready
    rcases linked_cases h hstep.1 hstep.2 with ⟨e, hmoves, hkeeps⟩ | ⟨e, hmoves, hkeeps⟩
    · rcases hjoins with hjoins | hjoins
      · exact .inl (hmoves.joins hkeeps h hready.openA hrunning.1 hjoins)
      · exact .inr (hmoves.joins_swap hkeys (hindexB session) hkeeps h hready.openA
          hready.sessionA hjoins)
    · rcases hjoins with hjoins | hjoins
      · exact .inl (hmoves.joins_swap hkeys (hindexA session) hkeeps h.swap hready.openB
          hready.sessionB hjoins)
      · exact .inr (hmoves.joins hkeeps h.swap hready.openB hrunning.2 hjoins)
  · rcases linked_cases h hstep.1 hstep.2 with ⟨e, hmoves, hkeeps⟩ | ⟨e, hmoves, hkeeps⟩
    · exact .inl (hmoves.joins_new hkeeps h hrunning.1 hready' hready)
    · exact .inr (hmoves.joins_new hkeeps h.swap hrunning.2 hready'.swap
        (fun hswap => hready hswap.swap))

theorem joined_of_run (hrun : Run (Guarded Step (Linked authoritiesOf indexA indexB))
      (initial peerA peerB protocol : Transport PeerId A S Aleph Rmc) events t) :
    Running t → Ready session t →
      Joins authoritiesOf indexA session t ∨ Joins authoritiesOf indexB session t.swap := by
  induction hrun with
  | refl =>
    intro _ hready
    exact absurd rfl hready.sessionA
  | tail run last ih =>
    intro hrunning
    have hhosted := hosted_of_run run
    exact joined_step hkeys hindexA hindexB hhosted last hrunning
      (ih (running_step hhosted last hrunning))

omit hindexB in
/-- Once the second node has data of the session to read, it is going to know the first one. -/
theorem asks_of_run (h : Hosted authoritiesOf indexA indexB t) (hbound : Bound session t)
    (hasks : Ready session t → Asks authoritiesOf indexA session t)
    (hrun : Run (Guarded Step (Linked authoritiesOf indexA indexB)) t events t') :
    Hosted authoritiesOf indexA indexB t' ∧ Bound session t' ∧
      (Running t' → Ready session t' → Asks authoritiesOf indexA session t') := by
  induction hrun with
  | refl => exact ⟨h, hbound, fun _ => hasks⟩
  | tail _ last ih =>
    obtain ⟨hhosted, hbound, hasks⟩ := ih
    have hrunning := running_step hhosted last
    rcases linked_cases hhosted last.1 last.2 with ⟨e, hmoves, hkeeps⟩ | ⟨e, hmoves, hkeeps⟩
    · refine ⟨hosted_step hhosted last, hmoves.bound hkeeps hhosted hbound, ?_⟩
      intro hrunning' hready'
      have hready := hmoves.ready hbound hready'
      exact hmoves.asks hkeeps hhosted hready hrunning'.1 (hasks (hrunning hrunning') hready)
    · refine ⟨hosted_step hhosted last, (hmoves.bound hkeeps hhosted.swap hbound.swap).swap, ?_⟩
      intro hrunning' hready'
      have hready := (hmoves.ready hbound.swap hready'.swap).swap
      exact hmoves.asks_swap hkeys (hindexA session) hkeeps hhosted.swap hready.swap hrunning'.2
        (hasks (hrunning hrunning') hready)

end Readings

omit [SignatureScheme A S] in
theorem Quiet.not_underWay (h : Quiet t) {message : MetaMessage PeerId S} :
    ¬UnderWay t.b.task.network.localPeerId t.a.task t.unread message := by
  rintro (hpledged | hunread)
  · cases hpledged with
    | sent sent =>
      rw [List.drop_length] at sent
      cases sent
    | queuedForPeer queued | queuedForAll queued =>
      rw [h.commandsA] at queued
      cases queued
    | starting starting =>
      rw [h.startingA] at starting
      cases starting
  · rw [h.unreadB] at hunread
    cases hunread

theorem Quiet.knows (h : Quiet t) (hjoins : Joins authoritiesOf indexA session t) :
    Knows session t := by
  rcases hjoins with hknows | ⟨message, _, hmeant⟩
  · exact hknows
  · exact absurd hmeant h.not_underWay

theorem run_swap (hrun : Run (Guarded Step (Linked authoritiesOf indexA indexB)) t events t') :
    Run (Guarded Step (Linked authoritiesOf indexB indexA)) t.swap (events.map Event.swap)
      t'.swap := by
  induction hrun with
  | refl => exact .refl
  | tail _ last ih => exact .tail ih ⟨last.1.swap, last.2.swap⟩

theorem knows_of_sent [LawfulPeerIdBytes PeerId] [LawfulIndexCodec] [LawfulCodec S]
    (hkeys : ∀ (key : A) msg, SignatureScheme.verify key msg (SignatureScheme.sign key msg : S) = true)
    (hdata : ∀ data : NetworkData Aleph Rmc, Codec.decode (Codec.encode data) = some (data, []))
    (hindexA : ∀ session, (indexA session).IsUsize) {t₁ t₂ : Transport PeerId A S Aleph Rmc}
    (hhosted : Hosted authoritiesOf indexA indexB t₁) (hready : Ready session t₁)
    (hstep : Guarded Step (Linked authoritiesOf indexA indexB) t₁ event t₂)
    (hsends : SendsData session t₁ t₂)
    (hrun : Run (Guarded Step (Linked authoritiesOf indexA indexB)) t₂ events t)
    (hrunning : Running t) (hquiet : Quiet t) (hready' : Ready session t) : Knows session t := by
  have hbound := hready.bound hhosted
  have hsent : Bound session t₂ ∧ Asks authoritiesOf indexA session t₂ := by
    obtain ⟨data, hraw⟩ := hsends
    rcases linked_cases hhosted hstep.1 hstep.2 with ⟨e, hmoves, hkeeps⟩ | ⟨e, hmoves, hkeeps⟩
    · have hunread : Codec.encode (.ofData session data :
          InternalMessage PeerId S (NetworkData Aleph Rmc)) ∈ t₂.unread := by
        rw [hmoves.sends]
        exact List.mem_append_right _ hraw
      exact ⟨hmoves.bound hkeeps hhosted hbound,
        .inl ⟨data, _, hunread, [], decode_encode_ofData (hdata data) session⟩⟩
    · have hother : t₂.a = t₁.a := hmoves.other
      simp [outgoing, hother, sentTo] at hraw
  obtain ⟨_, _, hasks⟩ := asks_of_run hkeys hindexA (hosted_step hhosted hstep) hsent.1
    (fun _ => hsent.2) hrun
  rcases hasks hrunning hready' with ⟨data, raw, hraw, _⟩ | hrequest | hjoins
  · rw [hquiet.unreadB] at hraw
    cases hraw
  · exact absurd hrequest hquiet.swap.not_underWay
  · exact hquiet.knows hjoins

end Runs

/-- In every run over a stream that stays open and loses nothing, when nothing is under way and
both nodes have the session, one of them is authenticated at the other; and a node that has
sent data of the session since both had it is authenticated at the other one. -/
theorem peers_authenticated [LawfulPeerIdBytes PeerId] [LawfulIndexCodec] [LawfulCodec S]
    {authoritiesOf : SessionId → List A} {indexA indexB : SessionId → NodeIndex}
    {peerA peerB : PeerId} {protocol : String} {t : Transport PeerId A S Aleph Rmc}
    {events : List (Event PeerId A S Aleph Rmc)} {session : SessionId}
    (hkeys : ∀ (key : A) msg, SignatureScheme.verify key msg (SignatureScheme.sign key msg : S) = true)
    (haleph : ∀ data : Aleph, Codec.decode (Codec.encode data) = some (data, []))
    (hrmc : ∀ data : Rmc, Codec.decode (Codec.encode data) = some (data, []))
    (hindexA : ∀ session, (indexA session).IsUsize) (hindexB : ∀ session, (indexB session).IsUsize)
    (hrun : Run (Guarded Step (Linked authoritiesOf indexA indexB))
      (initial peerA peerB protocol : Transport PeerId A S Aleph Rmc) events t)
    (hrunning : Running t) (hquiet : Quiet t) (hready : Ready session t) :
    (Knows session t ∨ Knows session t.swap) ∧
      ∀ earlier event later t₁ t₂,
        Run (Guarded Step (Linked authoritiesOf indexA indexB)) (initial peerA peerB protocol)
          earlier t₁ →
        Guarded Step (Linked authoritiesOf indexA indexB) t₁ event t₂ →
        Run (Guarded Step (Linked authoritiesOf indexA indexB)) t₂ later t →
        Ready session t₁ →
        (SendsData session t₁ t₂ → Knows session t) ∧
          (SendsData session t₁.swap t₂.swap → Knows session t.swap) := by
  constructor
  · rcases joined_of_run hkeys hindexA hindexB hrun hrunning hready with hjoins | hjoins
    · exact .inl (hquiet.knows hjoins)
    · exact .inr (hquiet.swap.knows hjoins)
  · intro earlier event later t₁ t₂ hearlier hstep hlater hready₁
    have hdata := NetworkData.decode_encode haleph hrmc
    have hhosted := hosted_of_run hearlier
    constructor
    · intro hsends
      exact knows_of_sent hkeys hdata hindexA hhosted hready₁ hstep hsends hlater hrunning hquiet
        hready
    · intro hsends
      exact knows_of_sent hkeys hdata hindexB hhosted.swap hready₁.swap
        ⟨hstep.1.swap, hstep.2.swap⟩ hsends (run_swap hlater) ⟨hrunning.2, hrunning.1⟩ hquiet.swap
        hready.swap

end Transport

section Example
open TransportNode ConsensusNetwork

@[reducible] def byteSums : SignatureScheme UInt32 UInt32 where
  sign key msg := msg.foldl (fun sum byte => sum + byte.toUInt32) key
  verify key msg sgn := decide (sgn = msg.foldl (fun sum byte => sum + byte.toUInt32) key)

attribute [local instance] nodeIndexCodec nodeIndexCodec_lawful byteSums

abbrev HostNode := TransportNode PlainPeer UInt32 UInt32 UInt8 UInt8
abbrev HostTransport := Transport PlainPeer UInt32 UInt32 UInt8 UInt8
abbrev HostCommand := SessionCommand PlainPeer UInt32 (NetworkData UInt8 UInt8)

def hostKeychain (id : NodeIndex) : KeyBox UInt32 :=
  ⟨id, .ofNat (7 + id.val), [7, 8]⟩

private def idleNode (peer : PlainPeer) (peers : Peers PlainPeer) (loop : Loop PlainPeer) :
    HostNode :=
  ⟨⟨{ new peer "p" with peers := peers }, loop, [], []⟩, ∅, fun _ => [], fun _ => []⟩

def hostNode (peer : PlainPeer) (id : NodeIndex) (peers : Peers PlainPeer)
    (commands : List HostCommand) (loop : Loop PlainPeer)
    (starting : List (MetaMessage PlainPeer UInt32)) (calls : List (NetworkCall PlainPeer))
    (arrived : SessionId → List (PlainPeer × NetworkData UInt8 UInt8)) : HostNode :=
  ⟨⟨{ ((new peer "p").startSession ⟨0⟩ (hostKeychain id)).1 with
      peers := peers, commands := ⟨commands, true⟩ }, loop, starting, calls⟩,
    (∅ : FiniteMap _ _).insert ⟨0⟩ (.splitNetwork ⟨0⟩), arrived, fun _ => []⟩

def hostMeta (peer : PlainPeer) (id : NodeIndex) : MetaMessage PlainPeer UInt32 :=
  .authentication ⟨⟨0⟩, peer, id⟩
    ((hostKeychain id).sign (Codec.encode (⟨⟨0⟩, peer, id⟩ : AuthData PlainPeer)))

def hostMessage (peer : PlainPeer) (id : NodeIndex) : List UInt8 :=
  Codec.encode
    (.ofMeta (hostMeta peer id) : InternalMessage PlainPeer UInt32 (NetworkData UInt8 UInt8))

def met (remote : PlainPeer) : Peers PlainPeer := Peers.new.insert remote

section Moves
variable {peer : PlainPeer} {id : NodeIndex} {peers : Peers PlainPeer} {commands : List HostCommand}
  {starting : List (MetaMessage PlainPeer UInt32)} {calls : List (NetworkCall PlainPeer)}
  {arrived : SessionId → List (PlainPeer × NetworkData UInt8 UInt8)}

private theorem idleNode_opened (remote : PlainPeer) :
    TransportNode.Step (idleNode peer .new .select) (.network (.streamOpened remote "p" []))
      (idleNode peer (met remote) .retaining) := by
  have henumerates : Enumerates [] (∅ : Finset SessionId) := by decide
  exact .network trivial (.streamOpened _ henumerates rfl)

private theorem idleNode_retained :
    TransportNode.Step (idleNode peer peers .retaining) (.network .sessionsRetained)
      (idleNode peer peers .select) :=
  .network trivial .sessionsRetained

private theorem idleNode_started
    (hkeychain : KeyBox.new id [(7 : UInt32), 8] = .ok (hostKeychain id)) :
    TransportNode.Step (idleNode peer peers .select)
      (.network (.sessionStarted ⟨0⟩ (hostKeychain id)))
      (hostNode peer id peers [] .select [hostMeta peer id] []
        (Function.update (fun _ => []) ⟨0⟩ [])) :=
  .network rfl (.sessionStarted _ ⟨_, _, hkeychain⟩)

private theorem hostNode_queued :
    TransportNode.Step (hostNode peer id peers [] .select [hostMeta peer id] calls arrived)
      (.network (.authenticationQueued (hostMeta peer id)))
      (hostNode peer id peers [.ofMeta (hostMeta peer id) .all] .select [] calls arrived) :=
  .network trivial (.authenticationQueued (List.nil_append _).symm)

private theorem met_enumerates (remote : PlainPeer) :
    Enumerates [remote] (met remote).allPeers.keys := by
  refine ⟨List.nodup_singleton _, ?_⟩
  intro k
  rw [List.mem_singleton]
  simp only [met, Peers.insert, Peers.new, FiniteMap.mem_keys_iff, FiniteMap.lookup_insert]
  by_cases hk : k = remote
  · simp [hk]
  · simp [hk]

private theorem hostNode_announced (remote : PlainPeer) :
    TransportNode.Step
      (hostNode peer id (met remote) [.ofMeta (hostMeta peer id) .all] .select [] [] arrived)
      (.network (.command (.ofMeta (hostMeta peer id) .all) [remote] []))
      (hostNode peer id (met remote) [] .retaining []
        [.sendMessage remote "p" (hostMessage peer id)] arrived) :=
  .network trivial (.command rfl (met_enumerates remote) nofun)

theorem hostNode_retained :
    TransportNode.Step (hostNode peer id peers [] .retaining [] calls arrived)
      (.network .sessionsRetained) (hostNode peer id peers [] .select [] calls arrived) :=
  .network trivial .sessionsRetained

theorem hostNode_notified (remote : PlainPeer) (messages : List (String × List UInt8)) :
    TransportNode.Step (hostNode peer id peers [] .select [] calls arrived)
      (.network (.notificationsReceived remote messages))
      (hostNode peer id peers [] (.receiving remote messages) [] calls arrived) :=
  .network trivial (.notificationsReceived _ _)

private theorem hostNode_done {remote : PlainPeer} :
    TransportNode.Step (hostNode peer id peers [] (.receiving remote []) [] calls arrived)
      (.network .messagesDone) (hostNode peer id peers [] .retaining [] calls arrived) :=
  .network trivial .messagesDone

end Moves

/-- Both nodes have opened their streams, started session 0 and announced it to each other. -/
def presented : HostTransport where
  a := hostNode ⟨1⟩ ⟨0⟩ (met ⟨2⟩) [] .select [] [.sendMessage ⟨2⟩ "p" (hostMessage ⟨1⟩ ⟨0⟩)]
    (Function.update (fun _ => []) ⟨0⟩ [])
  b := hostNode ⟨2⟩ ⟨1⟩ (met ⟨1⟩) [] .select [] [.sendMessage ⟨1⟩ "p" (hostMessage ⟨2⟩ ⟨1⟩)]
    (Function.update (fun _ => []) ⟨0⟩ [])
  toA := [hostMessage ⟨2⟩ ⟨1⟩]
  toB := [hostMessage ⟨1⟩ ⟨0⟩]

abbrev HostRun : HostTransport →
    List (Transport.Event PlainPeer UInt32 UInt32 UInt8 UInt8) → HostTransport → Prop :=
  Run (Guarded Transport.Step (Transport.Linked (fun _ => [7, 8]) (fun _ => ⟨0⟩) fun _ => ⟨1⟩))

private def Unconcerned :
    ConsensusNetwork.Event PlainPeer UInt32 UInt32 (NetworkData UInt8 UInt8) → Prop
  | .streamOpened _ _ _ | .streamClosed _ _ | .notificationsReceived _ _ | .sessionStarted _ _ =>
    False
  | _ => True

private theorem keeps_of_unconcerned {index : SessionId → NodeIndex} {peer : PlainPeer}
    {node : HostNode}
    {event : ConsensusNetwork.Event PlainPeer UInt32 UInt32 (NetworkData UInt8 UInt8)}
    (h : Unconcerned event) : Keeps (fun _ => [7, 8]) index peer node (.network event) := by
  cases event with
  | streamOpened | streamClosed | notificationsReceived | sessionStarted => exact h.elim
  | _ => simp [Keeps, KeepsStream, Reopens, StartsWith]

private theorem keeps_opened {index : SessionId → NodeIndex} {peer remote : PlainPeer} :
    Keeps (fun _ => [7, 8]) index remote (idleNode peer .new .select)
      (.network (.streamOpened remote "p" [])) := by
  simp [Keeps, KeepsStream, StartsWith, idleNode, Peers.new]

private theorem keeps_started {id : NodeIndex} {peer remote : PlainPeer} {peers : Peers PlainPeer}
    (hkeychain : KeyBox.new id [(7 : UInt32), 8] = .ok (hostKeychain id)) :
    Keeps (fun _ => [7, 8]) (fun _ => id) remote (idleNode peer peers .select)
      (.network (.sessionStarted ⟨0⟩ (hostKeychain id))) := by
  refine ⟨⟨?_, ?_⟩, ?_⟩
  · simp [Reopens]
  · simp
  · rintro _ _ ⟨⟩
    exact hkeychain

theorem presented_run : ∃ events,
    HostRun (Transport.initial ⟨1⟩ ⟨2⟩ "p") events presented := by
  have hopened : HostRun (Transport.initial ⟨1⟩ ⟨2⟩ "p") _ _ := (Run.refl.tail
      ⟨by exact keeps_opened, .a (idleNode_opened ⟨2⟩) (by rfl)⟩).tail
    ⟨by exact keeps_opened, .b (idleNode_opened ⟨1⟩) (by rfl)⟩
  have hready := (hopened.tail
      ⟨by exact keeps_of_unconcerned trivial, .a idleNode_retained (by rfl)⟩).tail
    ⟨by exact keeps_of_unconcerned trivial, .b idleNode_retained (by rfl)⟩
  have hstarted := (hready.tail
      ⟨by exact keeps_started rfl, .a (idleNode_started rfl) (by rfl)⟩).tail
    ⟨by exact keeps_started rfl, .b (idleNode_started rfl) (by rfl)⟩
  have hqueued := (hstarted.tail
      ⟨by exact keeps_of_unconcerned trivial, .a hostNode_queued (by rfl)⟩).tail
    ⟨by exact keeps_of_unconcerned trivial, .b hostNode_queued (by rfl)⟩
  have hannounced := (hqueued.tail
      ⟨by exact keeps_of_unconcerned trivial, .a (hostNode_announced ⟨2⟩) (by rfl)⟩).tail
    ⟨by exact keeps_of_unconcerned trivial, .b (hostNode_announced ⟨1⟩) (by rfl)⟩
  have hpresented := (hannounced.tail
      ⟨by exact keeps_of_unconcerned trivial, .a hostNode_retained (by rfl)⟩).tail
    ⟨by exact keeps_of_unconcerned trivial, .b hostNode_retained (by rfl)⟩
  exact ⟨_, hpresented⟩

private theorem keeps_notified {index : SessionId → NodeIndex} {peer remote : PlainPeer}
    {id : NodeIndex} {calls : List (NetworkCall PlainPeer)}
    {arrived : SessionId → List (PlainPeer × NetworkData UInt8 UInt8)}
    (messages : List (String × List UInt8)) :
    Keeps (fun _ => [7, 8]) index remote (hostNode peer id (met remote) [] .select [] calls arrived)
      (.network (.notificationsReceived remote messages)) := by
  refine ⟨⟨?_, ?_⟩, ?_⟩
  · simp [Reopens]
  · intro _ _
    exact Peers.mem_allPeers_insert_self
  · simp [StartsWith]

def acquainted (arrivedA arrivedB : SessionId → List (PlainPeer × NetworkData UInt8 UInt8)) :
    HostTransport where
  a := hostNode ⟨1⟩ ⟨0⟩ ((met ⟨2⟩).authenticate ⟨2⟩ ⟨0⟩ ⟨1⟩) [] .select []
    [.sendMessage ⟨2⟩ "p" (hostMessage ⟨1⟩ ⟨0⟩)] arrivedA
  b := hostNode ⟨2⟩ ⟨1⟩ ((met ⟨1⟩).authenticate ⟨1⟩ ⟨0⟩ ⟨0⟩) [] .select []
    [.sendMessage ⟨1⟩ "p" (hostMessage ⟨2⟩ ⟨1⟩)] arrivedB
  toA := []
  toB := []

theorem acquainted_run : ∃ events arrivedA arrivedB,
    HostRun presented events (acquainted arrivedA arrivedB) ∧ arrivedB ⟨0⟩ = [] := by
  have hreadA : ∀ arrived, TransportNode.Step
      (hostNode ⟨1⟩ ⟨0⟩ (met ⟨2⟩) [] (.receiving ⟨2⟩ [("p", hostMessage ⟨2⟩ ⟨1⟩)]) []
        [.sendMessage ⟨2⟩ "p" (hostMessage ⟨1⟩ ⟨0⟩)] arrived)
      (.network (.message ⟨2⟩ "p" (hostMessage ⟨2⟩ ⟨1⟩)))
      (hostNode ⟨1⟩ ⟨0⟩ ((met ⟨2⟩).authenticate ⟨2⟩ ⟨0⟩ ⟨1⟩) [] (.receiving ⟨2⟩ []) []
        [.sendMessage ⟨2⟩ "p" (hostMessage ⟨1⟩ ⟨0⟩)] _) :=
    fun _ => .network (by trivial) (.message (by rfl))
  have hreadB : ∀ arrived, TransportNode.Step
      (hostNode ⟨2⟩ ⟨1⟩ (met ⟨1⟩) [] (.receiving ⟨1⟩ [("p", hostMessage ⟨1⟩ ⟨0⟩)]) []
        [.sendMessage ⟨1⟩ "p" (hostMessage ⟨2⟩ ⟨1⟩)] arrived)
      (.network (.message ⟨1⟩ "p" (hostMessage ⟨1⟩ ⟨0⟩)))
      (hostNode ⟨2⟩ ⟨1⟩ ((met ⟨1⟩).authenticate ⟨1⟩ ⟨0⟩ ⟨0⟩) [] (.receiving ⟨1⟩ []) []
        [.sendMessage ⟨1⟩ "p" (hostMessage ⟨2⟩ ⟨1⟩)] _) :=
    fun _ => .network (by trivial) (.message (by rfl))
  have hnotified : HostRun presented _ _ := (Run.refl.tail
      ⟨by exact keeps_notified _,
        .a (hostNode_notified ⟨2⟩ [("p", hostMessage ⟨2⟩ ⟨1⟩)]) (by rfl)⟩).tail
    ⟨by exact keeps_notified _,
      .b (hostNode_notified ⟨1⟩ [("p", hostMessage ⟨1⟩ ⟨0⟩)]) (by rfl)⟩
  have hread := (hnotified.tail
      ⟨by exact keeps_of_unconcerned trivial, .a (hreadA _) (by rfl)⟩).tail
    ⟨by exact keeps_of_unconcerned trivial, .b (hreadB _) (by rfl)⟩
  have hdone := (hread.tail
      ⟨by exact keeps_of_unconcerned trivial, .a hostNode_done (by rfl)⟩).tail
    ⟨by exact keeps_of_unconcerned trivial, .b hostNode_done (by rfl)⟩
  have hretained := (hdone.tail
      ⟨by exact keeps_of_unconcerned trivial, .a hostNode_retained (by rfl)⟩).tail
    ⟨by exact keeps_of_unconcerned trivial, .b hostNode_retained (by rfl)⟩
  exact ⟨_, _, _, hretained, by rfl⟩

private theorem acquainted_ready
    {arrivedA arrivedB : SessionId → List (PlainPeer × NetworkData UInt8 UInt8)} :
    Transport.Ready ⟨0⟩ (acquainted arrivedA arrivedB) := by
  constructor
  · exact Peers.mem_allPeers_authenticate Peers.mem_allPeers_insert_self
  · exact Peers.mem_allPeers_authenticate Peers.mem_allPeers_insert_self
  · simp [acquainted, hostNode, startSession]
  · simp [acquainted, hostNode, startSession]

theorem Transport.peers_authenticated_two : ∃ events t,
    Run (Guarded Transport.Step
        (Transport.Linked (fun _ => [7, 8]) (fun _ => ⟨0⟩) fun _ => ⟨1⟩))
      (Transport.initial ⟨1⟩ ⟨2⟩ "p" : Transport PlainPeer UInt32 UInt32 UInt8 UInt8)
      events t ∧ Transport.Quiet t ∧ Transport.Ready ⟨0⟩ t ∧
    (Transport.Knows ⟨0⟩ t ∨ Transport.Knows ⟨0⟩ t.swap) := by
  have hkeys : ∀ (key : UInt32) msg, SignatureScheme.verify key msg
      (SignatureScheme.sign key msg : UInt32) = true := by
    intro key msg
    exact decide_eq_true rfl
  have hplain : ∀ data : UInt8, Codec.decode (Codec.encode data) = some (data, []) := fun _ => rfl
  obtain ⟨first, hpresented⟩ := presented_run
  obtain ⟨second, arrivedA, arrivedB, hacquainted, -⟩ := acquainted_run
  have hrun : HostRun (Transport.initial ⟨1⟩ ⟨2⟩ "p") (second ++ first)
      (acquainted arrivedA arrivedB) := Run.append_iff.mpr ⟨_, hpresented, hacquainted⟩
  have hrunning : Transport.Running (acquainted arrivedA arrivedB) := ⟨nofun, nofun⟩
  have hquiet : Transport.Quiet (acquainted arrivedA arrivedB) := ⟨rfl, rfl, rfl, rfl, rfl, rfl⟩
  have hindex : ∀ id : ℕ, id < 2 → ∀ _ : SessionId, NodeIndex.IsUsize ⟨id⟩ :=
    fun id hid _ => hid.trans (by decide)
  have hknown := Transport.peers_authenticated hkeys hplain hplain (hindex 0 (by decide))
    (hindex 1 (by decide)) hrun hrunning hquiet acquainted_ready
  exact ⟨_, _, hrun, hquiet, acquainted_ready, hknown.1⟩

end Example
end AlephNode
