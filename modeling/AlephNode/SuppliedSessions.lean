import AlephNode.SigningAgreement
import AlephNode.StockedSessions

/-!
# Sessions supply the nodes

Every item is available when the aggregator handles it, so the honest nodes without the rest of
their sessions make a run in which they are supplied. Their aggregators agree, then, if the members
order the same data.
-/
namespace AlephNode

variable {ι Hash A S Message Cache : Type}

namespace AuthorityNode
open Consensus (Informed NodeAssumed NodeProvided Started Supplied aggregatorEvents)

def Event.toConsensus : Event Hash A S Message → Option (Consensus.Event Hash A S)
  | .finality event => some (.finality event)
  | .sessionStarted session _ => some (.aggregatorStarted session)
  | .aggregator session event => some (.aggregator session event)
  | .authority _ _ => none

def consensusEvents (events : List (ι × Event Hash A S Message)) :
    List (ι × Consensus.Event Hash A S) :=
  events.filterMap (fun event => event.2.toConsensus.map (event.1, ·))

/-- The batches that the member of a session at a node has sent, oldest first. -/
def sentBatches [DecidableEq ι] (i : ι) (session : SessionId) :
    List (ι × Event Hash A S Message) → List (List (AlephData Hash))
  | [] => []
  | (j, .authority other event) :: events =>
    if j = i ∧ other = session then sentBatches i session events ++ event.sends
    else sentBatches i session events
  | _ :: events => sentBatches i session events

section Projections
variable [DecidableEq ι] {nodes : ι → AuthorityNode Hash A S Message Cache}
  {events : List (ι × Event Hash A S Message)}

private theorem nodes_update (i : ι) (node : AuthorityNode Hash A S Message Cache) :
    (fun k => (Function.update nodes i node k).node) =
      Function.update (fun k => (nodes k).node) i node.node := by
  funext k
  by_cases hk : k = i
  · subst hk
    rw [Function.update_self, Function.update_self]
  · rw [Function.update_of_ne hk, Function.update_of_ne hk]

private theorem sentBatches_other {i j : ι} {session : SessionId} {event : Event Hash A S Message}
    (h : ∀ other authorityEvent, event = .authority other authorityEvent →
      ¬(j = i ∧ other = session)) :
    sentBatches i session ((j, event) :: events) = sentBatches i session events := by
  cases event with
  | authority other authorityEvent => exact if_neg (h other authorityEvent rfl)
  | _ => rfl

private theorem aggregatorEvents_other {i j : ι} {session : SessionId}
    {event : Event Hash A S Message} (h : ∀ other aggregatorEvent,
      event = .aggregator other aggregatorEvent → ¬(j = i ∧ other = session)) :
    aggregatorEvents i session (consensusEvents ((j, event) :: events)) =
      aggregatorEvents i session (consensusEvents events) := by
  cases event with
  | aggregator other aggregatorEvent => exact if_neg (h other aggregatorEvent rfl)
  | _ => rfl

end Projections

section Working
variable [DecidableEq Hash] [AlephNetworkMessage Message Hash] [BlockCache Cache (AlephData Hash)]
  {node : AuthorityNode Hash A S Message Cache}

/-- What holds of the sessions of a node, given what their members have sent and what their
aggregators went through. -/
structure Working (node : AuthorityNode Hash A S Message Cache)
    (sent : SessionId → List (List (AlephData Hash)))
    (aggregated : SessionId → List (RunAggregator.Event Hash S)) : Prop where
  idle : ∀ session, node.node.aggregators.lookup session = none →
    node.sessions.lookup session = none ∧ sent session = [] ∧ aggregated session = []
  working : ∀ session task, node.node.aggregators.lookup session = some task →
    ∃ work, node.sessions.lookup session = some work ∧
      AuthoritySession.Stocked node.client task work ∧
      work.Forwards (sent session) (RunAggregator.deliveredBatches (aggregated session))

variable {sent : SessionId → List (List (AlephData Hash))}
  {aggregated : SessionId → List (RunAggregator.Event Hash S)} {session : SessionId}

theorem Working.finality (h : Working node sent aggregated)
    {finality : JustificationHandler.Task Hash A} (hgrows : node.client.Grows finality.handler.client) :
    Working { node with node.finality := finality } sent aggregated where
  idle := h.idle
  working session task hlookup := by
    obtain ⟨work, hwork, hstocked, hforwards⟩ := h.working session task hlookup
    exact ⟨work, hwork, hstocked.grown hgrows, hforwards⟩

theorem Working.sessionStarted (h : Working node sent aggregated)
    (hnone : node.node.aggregators.lookup session = none) {best : Option (Header Hash)}
    (hbest : ∀ header, best = some header → node.client.header header.hash = some header)
    {started : AuthoritySession Hash Message Cache} {lastBlock : ℕ}
    (hrun : AuthoritySession.start node.client best = .ok started) :
    Working { node with
      node.aggregators := node.node.aggregators.insert session (.start node.client lastBlock)
      sessions := node.sessions.insert session started } sent aggregated := by
  rcases h.idle session hnone with ⟨_, hsent, haggregated⟩
  constructor
  · intro other hother
    rw [FiniteMap.lookup_insert] at hother ⊢
    split at hother
    · cases hother
    · next hne =>
      rw [if_neg hne]
      exact h.idle other hother
  · intro other task hother
    rw [FiniteMap.lookup_insert] at hother ⊢
    split at hother
    · next hsame =>
      cases hother
      subst hsame
      refine ⟨started, if_pos rfl, AuthoritySession.stocked_start hbest hrun, ?_⟩
      rw [hsent, haggregated]
      cases best with
      | none => cases hrun
      | some header =>
        cases hrun
        exact ⟨fun _ => rfl, List.prefix_rfl⟩
    · next hne =>
      rw [if_neg hne]
      exact h.working other task hother

private theorem Working.moved (h : Working node sent aggregated) {task task' : RunAggregator Hash S}
    {work work' : AuthoritySession Hash Message Cache}
    {aggregators : FiniteMap SessionId (RunAggregator Hash S)}
    {sent' : SessionId → List (List (AlephData Hash))}
    {aggregated' : SessionId → List (RunAggregator.Event Hash S)}
    (hrunning : node.node.aggregators.lookup session = some task)
    (hworking : node.sessions.lookup session = some work)
    (haggregators : ∀ other, aggregators.lookup other =
      if other = session then some task' else node.node.aggregators.lookup other)
    (hothers : ∀ other, other ≠ session →
      sent' other = sent other ∧ aggregated' other = aggregated other)
    (hmoved : AuthoritySession.Stocked node.client task work →
      work.Forwards (sent session) (RunAggregator.deliveredBatches (aggregated session)) →
      AuthoritySession.Stocked node.client task' work' ∧
        work'.Forwards (sent' session) (RunAggregator.deliveredBatches (aggregated' session))) :
    Working { node with
      node.aggregators := aggregators
      sessions := node.sessions.insert session work' } sent' aggregated' := by
  constructor
  · intro other hother
    rw [haggregators] at hother
    rw [FiniteMap.lookup_insert]
    split at hother
    · cases hother
    · next hne =>
      rw [if_neg hne, (hothers other hne).1, (hothers other hne).2]
      exact h.idle other hother
  · intro other running hother
    rw [haggregators] at hother
    rw [FiniteMap.lookup_insert]
    split at hother
    · next hsame =>
      cases hother
      subst hsame
      obtain ⟨work₀, hlookup, hstocked, hforwards⟩ := h.working other task hrunning
      rw [hworking, Option.some.injEq] at hlookup
      subst hlookup
      exact ⟨work', if_pos rfl, hmoved hstocked hforwards⟩
    · next hne =>
      rw [if_neg hne, (hothers other hne).1, (hothers other hne).2]
      exact h.working other running hother

end Working

section Steps
variable [SignatureScheme A S] [MultiKeychain S] [Codec Hash] [Codec (SignatureSet S)]
  [DecidableEq Hash] [AlephNetworkMessage Message Hash] [BlockCache Cache (AlephData Hash)]
  {consensus : Consensus ι Hash A}

/-- What is assumed of the surroundings of the nodes. Of a member it is assumed that it orders
data that it has got, and of the select chain that it knows the blocks of the client. -/
def Expected (consensus : Consensus ι Hash A) (nodes : ι → AuthorityNode Hash A S Message Cache)
    (event : ι × Event Hash A S Message) : Prop :=
  (∀ consensusEvent, event.2.toConsensus = some consensusEvent →
    NodeAssumed consensus (Started (fun i => (nodes i).node)) (nodes event.1).node consensusEvent) ∧
  match event.2 with
  | .finality finalityEvent =>
    NodeProvided consensus (nodes event.1).node (.finality finalityEvent : Consensus.Event Hash A S)
  | .sessionStarted _ best =>
    ∀ header, best = some header → (nodes event.1).client.header header.hash = some header
  | .authority session sessionEvent => ∀ work, (nodes event.1).sessions.lookup session = some work →
    work.Fed (nodes event.1).client sessionEvent
  | .aggregator _ _ => True

section Serving
variable [DecidableEq ι] {nodes nodes' : ι → AuthorityNode Hash A S Message Cache}
  {events : List (ι × Event Hash A S Message)} {i : ι}

structure Serving (consensus : Consensus ι Hash A) (events : List (ι × Event Hash A S Message))
    (nodes : ι → AuthorityNode Hash A S Message Cache) : Prop where
  informed : ∀ i, Informed consensus (nodes i).node
  working : ∀ i, Working (nodes i) (fun session => sentBatches i session events)
    (fun session => aggregatorEvents i session (consensusEvents events))

private theorem Serving.update (h : Serving consensus events nodes) {event : Event Hash A S Message}
    {node : AuthorityNode Hash A S Message Cache} (hinformed : Informed consensus node.node)
    (hworking : Working node (fun session => sentBatches i session ((i, event) :: events))
      (fun session => aggregatorEvents i session (consensusEvents ((i, event) :: events)))) :
    Serving consensus ((i, event) :: events) (Function.update nodes i node) := by
  constructor
  · intro k
    by_cases hk : k = i
    · subst hk
      rwa [Function.update_self]
    · rw [Function.update_of_ne hk]
      exact h.informed k
  · intro k
    by_cases hk : k = i
    · subst hk
      rwa [Function.update_self]
    · have hsent : ∀ session, sentBatches k session ((i, event) :: events) =
          sentBatches k session events :=
        fun _ => sentBatches_other (fun _ _ _ hsame => hk hsame.1.symm)
      have haggregated : ∀ session, aggregatorEvents k session
          (consensusEvents ((i, event) :: events)) =
            aggregatorEvents k session (consensusEvents events) :=
        fun _ => aggregatorEvents_other (fun _ _ _ hsame => hk hsame.1.symm)
      simp only [hsent, haggregated, Function.update_of_ne hk]
      exact h.working k

theorem Serving.available (h : Serving consensus events nodes) {session : SessionId}
    {task task' : RunAggregator Hash S} {event : RunAggregator.Event Hash S}
    (hrunning : (nodes i).node.aggregators.lookup session = some task)
    (hstep : RunAggregator.Step (nodes i).client.toHeaderStore task event task') :
    NodeProvided consensus (nodes i).node (.aggregator session event) := by
  obtain ⟨work, _, hstocked, _⟩ := (h.working i).working session task hrunning
  cases hstep with
  | data processing =>
    apply hstocked.memberData
    apply hstocked.pending
    rw [processing]
    exact List.mem_cons_self
  | _ => trivial

private theorem Serving.aggregator (h : Serving consensus events nodes) {session : SessionId}
    {task task' : RunAggregator Hash S} {work : AuthoritySession Hash Message Cache}
    {event : RunAggregator.Event Hash S}
    (hrunning : (nodes i).node.aggregators.lookup session = some task)
    (hworking : (nodes i).sessions.lookup session = some work) (hheard : work.Heard event)
    (hstep : RunAggregator.Step (nodes i).client.toHeaderStore task event task') :
    Serving consensus ((i, .aggregator session event) :: events)
      (Function.update nodes i { nodes i with
        node.aggregators := (nodes i).node.aggregators.insert session task'
        sessions := (nodes i).sessions.insert session (work.aggregatorMoved event) }) := by
  refine h.update ⟨(h.informed i).attentive, (h.informed i).closed⟩ ?_
  apply (h.working i).moved hrunning hworking (FiniteMap.lookup_insert _ _ · _)
  · intro other hne
    refine ⟨rfl, aggregatorEvents_other ?_⟩
    rintro _ _ ⟨⟩ ⟨_, hsame⟩
    exact hne hsame.symm
  · intro hstocked hforwards
    refine ⟨hstocked.aggregator hheard hstep, ?_⟩
    have hevents : aggregatorEvents i session
        (consensusEvents ((i, .aggregator session event) :: events)) =
          event :: aggregatorEvents i session (consensusEvents events) := if_pos ⟨rfl, rfl⟩
    rw [hevents]
    exact hforwards.aggregator hheard

private theorem Serving.authority (h : Serving consensus events nodes) {session : SessionId}
    {work work' : AuthoritySession Hash Message Cache} {event : AuthoritySession.Event Hash Message}
    (hworking : (nodes i).sessions.lookup session = some work)
    (hfed : work.Fed (nodes i).client event)
    (hstep : AuthoritySession.Step (nodes i).client work event work') :
    Serving consensus ((i, .authority session event) :: events)
      (Function.update nodes i
        { nodes i with sessions := (nodes i).sessions.insert session work' }) := by
  refine h.update (h.informed i) ?_
  cases hrunning : (nodes i).node.aggregators.lookup session with
  | none =>
    have hnone := ((h.working i).idle session hrunning).1
    rw [hworking] at hnone
    cases hnone
  | some task =>
    apply (h.working i).moved hrunning hworking
    · intro other
      split
      · next hother => rw [hother, hrunning]
      · rfl
    · intro other hne
      refine ⟨sentBatches_other ?_, rfl⟩
      rintro _ _ ⟨⟩ ⟨_, hsame⟩
      exact hne hsame.symm
    · intro hstocked hforwards
      refine ⟨hstocked.step hfed hstep, ?_⟩
      have hsent : sentBatches i session ((i, .authority session event) :: events) =
          sentBatches i session events ++ event.sends := if_pos ⟨rfl, rfl⟩
      rw [hsent]
      exact hforwards.step hstep

theorem serving_step (h : Serving consensus events nodes) {event : ι × Event Hash A S Message}
    (hstep : Guarded (Step consensus) (Expected consensus) nodes event nodes') :
    Serving consensus (event :: events) nodes' := by
  rcases hstep with ⟨⟨hassumed, hprovided⟩, node, hnode, rfl⟩
  rcases event with ⟨i, event⟩
  dsimp only at hnode hassumed hprovided
  cases hnode with
  | finality step =>
    rcases (h.informed i).finality (hassumed _ rfl) hprovided step with ⟨hinformed, hgrows⟩
    exact h.update hinformed ((h.working i).finality hgrows)
  | sessionStarted run =>
    exact h.update ⟨(h.informed i).attentive, (h.informed i).closed⟩
      ((h.working i).sessionStarted (hassumed _ rfl) hprovided run)
  | aggregator running working heard step => exact h.aggregator running working heard step
  | authority working step => exact h.authority working (hprovided _ working) step

/-- A node as it starts, with the genesis block finalized and no session. -/
structure AtStart (consensus : Consensus ι Hash A) (node : AuthorityNode Hash A S Message Cache) :
    Prop where
  atGenesis : Consensus.AtGenesis consensus node.node
  closed : consensus.tree.ClosedIn node.client.toHeaderStore
  genesis : node.client.number consensus.genesis = some 0
  sessions : node.sessions = ∅

variable {start : ι → AuthorityNode Hash A S Message Cache}

theorem serving_of_run (hstart : ∀ i, AtStart consensus (start i))
    (hrun : Run (Guarded (Step consensus) (Expected consensus)) start events nodes) :
    Serving consensus events nodes := by
  apply hrun.history_invariant (Serving consensus)
  · constructor
    · intro i
      exact Consensus.informed_atGenesis (hstart i).atGenesis (hstart i).closed (hstart i).genesis
    · intro i
      constructor
      · intro session _
        rw [(hstart i).sessions]
        exact ⟨rfl, rfl, rfl⟩
      · intro session task hlookup
        rw [(hstart i).atGenesis.aggregators] at hlookup
        cases hlookup
  · intro _ _ _ _ _ h hstep
    exact serving_step h hstep

/-- Every item that an aggregator has still to handle is available to its client, and so is every
hash that comes with a multisignature: its number is unwrapped without a panic. -/
theorem items_available (hstart : ∀ i, AtStart consensus (start i))
    (hrun : Run (Guarded (Step consensus) (Expected consensus)) start events nodes)
    {session : SessionId} {task : RunAggregator Hash S}
    (hlookup : (nodes i).node.aggregators.lookup session = some task) :
    (∀ newData ∈ RunAggregator.pendingItems task.position,
      DataStore.Available (nodes i).client newData) ∧
    ∀ aggregator hash multisignature,
      task.aggregator.nextMultisignedHash = (aggregator, .returned hash multisignature) →
      Returns ({ task with aggregator := aggregator }.sendJustification (nodes i).client.toHeaderStore
        hash multisignature) := by
  obtain ⟨work, _, hstocked, _⟩ := ((serving_of_run hstart hrun).working i).working session task hlookup
  constructor
  · intro newData hmem
    exact hstocked.memberData newData (hstocked.pending hmem)
  · intro aggregator hash multisignature hpoll
    obtain ⟨rest, hqueue, _⟩ :=
      BlockSignatureAggregator.Aggregation.nextMultisignedHash_returned hpoll
    obtain ⟨header, hheader⟩ := hstocked.known hash (hqueue ▸ List.mem_cons_self)
    have hnumber : (nodes i).client.number hash = some header.number := by
      rw [HeaderStore.number, hheader, Option.map_some]
    exact ⟨_, by rw [RunAggregator.sendJustification, hnumber]⟩

/-- In the session the members of all nodes order the same data. -/
def OrderedAlike (session : SessionId) (items : List (AlephData Hash))
    (events : List (ι × Event Hash A S Message)) : Prop :=
  ∀ i, (sentBatches i session events).flatten <+: items

/-- What is delivered to the aggregator of a session was sent by its member. -/
theorem Serving.ordered (h : Serving consensus events nodes) {session : SessionId}
    {items : List (AlephData Hash)} (hordered : OrderedAlike session items events) :
    Consensus.Ordered session items (consensusEvents events) := by
  intro i
  rw [Consensus.deliveredItems]
  cases hlookup : (nodes i).node.aggregators.lookup session with
  | none =>
    rw [((h.working i).idle session hlookup).2.2]
    exact List.nil_prefix
  | some task =>
    obtain ⟨work, _, _, hforwards⟩ := (h.working i).working session task hlookup
    obtain ⟨missing, hsent⟩ := (List.prefix_append _ _).trans hforwards.behind
    refine List.IsPrefix.trans ?_ (hordered i)
    rw [← hsent, List.flatten_append]
    exact List.prefix_append _ _

/-- The surroundings are as expected, and a node begins a session when it has finalized what the
code takes for the last block of the session before. -/
def ExpectedInTurn (consensus : Consensus ι Hash A)
    (nodes : ι → AuthorityNode Hash A S Message Cache) (event : ι × Event Hash A S Message) : Prop :=
  Expected consensus nodes event ∧
    ∀ consensusEvent, event.2.toConsensus = some consensusEvent →
      Consensus.InTurn consensus (nodes event.1).node consensusEvent

/-- The nodes without their sessions make a run in which they are supplied. -/
theorem supplied_of_run (hstart : ∀ i, AtStart consensus (start i))
    (hrun : Run (Guarded (Step consensus) (ExpectedInTurn consensus)) start events nodes) :
    Run (Guarded (Consensus.Step consensus) (Supplied consensus)) (fun i => (start i).node)
      (consensusEvents events) (fun i => (nodes i).node) := by
  apply hrun.history_invariant (fun events nodes =>
    Run (Guarded (Consensus.Step consensus) (Supplied consensus)) (fun i => (start i).node)
      (consensusEvents events) (fun i => (nodes i).node))
  · exact .refl
  · rintro events nodes ⟨i, event⟩ _ hrun ih ⟨⟨⟨hassumed, hprovided⟩, hturn⟩, node, hnode, rfl⟩
    have hserving := serving_of_run hstart (hrun.mono (fun _ _ _ hstep => ⟨hstep.1.1, hstep.2⟩))
    dsimp only at hnode hassumed hprovided hturn
    cases hnode with
    | finality step =>
      exact ih.tail ⟨⟨⟨hassumed _ rfl, hturn _ rfl⟩, hprovided⟩, _, .finality step,
        nodes_update _ _⟩
    | @sessionStarted session =>
      exact ih.tail ⟨⟨⟨hassumed _ rfl, hturn _ rfl⟩, trivial⟩, _, .aggregatorStarted session,
        nodes_update _ _⟩
    | aggregator running working heard step =>
      exact ih.tail ⟨⟨⟨hassumed _ rfl, hturn _ rfl⟩, hserving.available running step⟩, _,
        .aggregator running step, nodes_update _ _⟩
    | @authority session _ _ work' =>
      have hsame : (fun k => (Function.update nodes i
          { nodes i with sessions := (nodes i).sessions.insert session work' } k).node) =
            fun k => (nodes k).node := by
        rw [nodes_update]
        exact Function.update_eq_self i (fun k => (nodes k).node)
      rwa [← hsame] at ih

/-- However late a node imports and finalizes blocks, and wherever it begins a session once it has
finalized the session before: if the members of the session order the same data, the aggregators
sign along one chain at all nodes that have not finalized anything beyond the session. One that has
handled what another one has received has signed what the other one has signed, but for blocks that
its own client has finalized. -/
theorem aggregators_agree (hfew : ∀ session,
      3 * (consensus.byzantine session).card < (consensus.authorities session).length)
    (hstart : ∀ i, AtStart consensus (start i))
    (hrun : Run (Guarded (Step consensus) (ExpectedInTurn consensus)) start events nodes)
    (hfits : ∀ event ∈ consensusEvents events, Consensus.Fits consensus event.2)
    {session : SessionId} {items : List (AlephData Hash)}
    (hordered : OrderedAlike session items events) {i j : ι} {task task' : RunAggregator Hash S}
    (hlookup : (nodes i).node.aggregators.lookup session = some task)
    (hlookup' : (nodes j).node.aggregators.lookup session = some task')
    (hwithin : Consensus.Within consensus session (nodes i).node)
    (hwithin' : Consensus.Within consensus session (nodes j).node) :
    (∀ b ∈ task.aggregator.startedRmc, ∀ c ∈ task'.aggregator.startedRmc,
      OnOneChain consensus.tree.IsParent b c) ∧
    (RunAggregator.pendingItems task'.position = [] →
      Consensus.deliveredItems i session (consensusEvents events) <+:
        Consensus.deliveredItems j session (consensusEvents events) →
      ∀ b ∈ task.aggregator.startedRmc, b ∈ task'.aggregator.startedRmc ∨
        AncestorOrEqual consensus.tree.IsParent b (nodes j).client.finalizedHash) := by
  have hserving := serving_of_run hstart (hrun.mono (fun _ _ _ hstep => ⟨hstep.1.1, hstep.2⟩))
  exact Consensus.agree_of_run hfew (fun i => (hstart i).atGenesis) (fun i => (hstart i).closed)
    (fun i => (hstart i).genesis) (supplied_of_run hstart hrun) hfits (hserving.ordered hordered)
    hlookup hlookup' hwithin hwithin'

end Serving
end Steps

section Example
open Consensus (line)
attribute [local instance] nodeIndexCodec

private abbrev LineNode : Type :=
  AuthorityNode ℕ PlainKey PlainSignature BlockList (LruCache (AlephData ℕ))

private abbrev LineEvent : Type := Event ℕ PlainKey PlainSignature BlockList

private abbrev LineSession : Type := AuthoritySession ℕ BlockList (LruCache (AlephData ℕ))

private def lineClient (i : Bool) : Client ℕ := .ofLine (bif i then 3 else 1) 0

private def lineNodes (i : Bool) : LineNode :=
  ⟨⟨⟨{ JustificationHandler.singleAuthority ⟨10⟩ with client := lineClient i }, .top⟩, ∅⟩, ∅⟩

private theorem lineClient_closed (i : Bool) :
    line.tree.ClosedIn (lineClient i).toHeaderStore where
  subset := by
    cases i with
    | true => exact .refl _
    | false => exact (Client.ofLine_grows (by decide) (Nat.le_refl 0)).headers
  parent := by
    rintro p c header ⟨parentHeader, childHeader, hparent, hchild, rfl⟩ hknown
    simp only [line, Consensus.sole, lineClient, Client.ofLine] at hparent hchild hknown ⊢
    split at hchild
    · cases hchild
      split at hparent
      · split at hknown
        · exact ⟨_, if_pos (by dsimp only at *; omega)⟩
        · cases hknown
      · cases hparent
    · cases hchild

private theorem lineNodes_atStart (i : Bool) : AtStart line (lineNodes i) where
  atGenesis := {
    loop := rfl
    finalizeCalls := rfl
    sessionPeriod := rfl
    sessionAuthorities := fun _ _ hlookup => JustificationHandler.singleAuthority_lookup ⟨10⟩ hlookup
    headers := (lineClient_closed i).subset
    finalizedHash := rfl
    finalizedNumber := rfl
    aggregators := rfl }
  closed := lineClient_closed i
  genesis := by cases i <;> rfl
  sessions := rfl

private structure LineReaches (events : List (Bool × LineEvent)) (nodes : Bool → LineNode) (i : Bool)
    (client : Client ℕ) (task : RunAggregator ℕ PlainSignature) (work : LineSession) : Prop where
  run : Run (Guarded (Step line) (ExpectedInTurn line)) lineNodes events nodes
  fits : ∀ event ∈ consensusEvents events, Consensus.Fits line event.2
  client : (nodes i).client = client
  running : (nodes i).node.aggregators.lookup ⟨0⟩ = some task
  working : (nodes i).sessions.lookup ⟨0⟩ = some work

private theorem line_fits :
    ∀ event ∈ consensusEvents ([] : List (Bool × LineEvent)), Consensus.Fits line event.2 := by
  intro _ hmem
  cases hmem

section Moves
variable {events : List (Bool × LineEvent)} {nodes : Bool → LineNode} {i : Bool} {client : Client ℕ}
  {task task' : RunAggregator ℕ PlainSignature} {work work' : LineSession}

private theorem LineReaches.expected (h : LineReaches events nodes i client task work) :
    Run (Guarded (Step line) (Expected line)) lineNodes events nodes :=
  h.run.mono (fun _ _ _ hstep => ⟨hstep.1.1, hstep.2⟩)

private theorem LineReaches.authority (h : LineReaches events nodes i client task work)
    (event : AuthoritySession.Event ℕ BlockList)
    (hstep : AuthoritySession.Step client work event work') (hfed : work.Fed client event) :
    ∃ nodes', LineReaches ((i, .authority ⟨0⟩ event) :: events) nodes' i client task work' ∧
      ∀ k, k ≠ i → nodes' k = nodes k := by
  have hmoved : NodeStep line (nodes i) (.authority ⟨0⟩ event)
      { nodes i with sessions := (nodes i).sessions.insert ⟨0⟩ work' } :=
    .authority h.working (by rwa [h.client])
  have hexpected : ExpectedInTurn line nodes (i, .authority ⟨0⟩ event) := by
    refine ⟨⟨by simp [Event.toConsensus], ?_⟩, by simp [Event.toConsensus]⟩
    intro other hother
    dsimp only at hother ⊢
    rw [h.working, Option.some.injEq] at hother
    rwa [h.client, ← hother]
  refine ⟨_, ⟨h.run.tail ⟨hexpected, _, hmoved, rfl⟩, h.fits, ?_, ?_, ?_⟩, ?_⟩
  · rw [Function.update_self]
    exact h.client
  · rw [Function.update_self]
    exact h.running
  · rw [Function.update_self]
    exact Finmap.lookup_insert _
  · intro k hk
    exact Function.update_of_ne hk _ _

private theorem LineReaches.aggregator {event : RunAggregator.Event ℕ PlainSignature}
    (h : LineReaches events nodes i client task work)
    (hstep : RunAggregator.Step client.toHeaderStore task event task') (hheard : work.Heard event) :
    ∃ nodes', LineReaches ((i, .aggregator ⟨0⟩ event) :: events) nodes' i client task'
        (work.aggregatorMoved event) ∧ ∀ k, k ≠ i → nodes' k = nodes k := by
  have hmoved : NodeStep line (nodes i) (.aggregator ⟨0⟩ event) { nodes i with
      node.aggregators := (nodes i).node.aggregators.insert ⟨0⟩ task'
      sessions := (nodes i).sessions.insert ⟨0⟩ (work.aggregatorMoved event) } :=
    .aggregator h.running h.working hheard (by rwa [h.client])
  have hexpected : ExpectedInTurn line nodes (i, .aggregator ⟨0⟩ event) := by
    refine ⟨⟨?_, trivial⟩, ?_⟩
    · rintro _ ⟨⟩
      trivial
    · rintro _ ⟨⟩
      trivial
  refine ⟨_, ⟨h.run.tail ⟨hexpected, _, hmoved, rfl⟩, List.forall_mem_cons.mpr ⟨trivial, h.fits⟩, ?_,
    ?_, ?_⟩, ?_⟩
  · rw [Function.update_self]
    exact h.client
  · rw [Function.update_self]
    exact Finmap.lookup_insert _
  · rw [Function.update_self]
    exact Finmap.lookup_insert _
  · intro k hk
    exact Function.update_of_ne hk _ _

private theorem LineReaches.imports (h : LineReaches events nodes i (.ofLine 1 0) task work) :
    ∃ nodes', LineReaches
        ((i, .finality (.headersImported (Client.ofLine 3 0).toHeaderStore 3)) :: events) nodes' i
        (.ofLine 3 0) task work ∧ ∀ k, k ≠ i → nodes' k = nodes k := by
  have hgrows : (nodes i).client.toHeaderStore.Subset (Client.ofLine 3 0).toHeaderStore := by
    rw [h.client]
    exact (Client.ofLine_grows (by decide) (Nat.le_refl 0)).headers
  have hmoved : NodeStep line (nodes i)
      (.finality (.headersImported (Client.ofLine 3 0).toHeaderStore 3))
      { nodes i with node.finality.handler.client := { (nodes i).client with
        toHeaderStore := (Client.ofLine 3 0).toHeaderStore, bestNumber := 3 } } :=
    .finality (.headersImported hgrows)
  have hexpected : ExpectedInTurn line nodes
      (i, .finality (.headersImported (Client.ofLine 3 0).toHeaderStore 3)) := by
    refine ⟨⟨?_, .refl _⟩, ?_⟩
    · rintro _ ⟨⟩
      exact .refl _
    · rintro _ ⟨⟩
      trivial
  refine ⟨_, ⟨h.run.tail ⟨hexpected, _, hmoved, rfl⟩, List.forall_mem_cons.mpr ⟨trivial, h.fits⟩, ?_,
    ?_, ?_⟩, ?_⟩
  · rw [Function.update_self, h.client]
    rfl
  · rw [Function.update_self]
    exact h.running
  · rw [Function.update_self]
    exact h.working
  · intro k hk
    exact Function.update_of_ne hk _ _

end Moves

private def lineBegun : RunAggregator ℕ PlainSignature := .start (.ofLine 3 0) 9

private def lineWork (client : Client ℕ) (best : Header ℕ) : LineSession :=
  ⟨.new client .unbounded, ⟨⟨best.hash, best.number⟩, .unbounded⟩, 0, []⟩

private theorem line_starts {events : List (Bool × LineEvent)} {nodes : Bool → LineNode} (i : Bool)
    (best : Header ℕ)
    (hrun : Run (Guarded (Step line) (ExpectedInTurn line)) lineNodes events nodes)
    (hfits : ∀ event ∈ consensusEvents events, Consensus.Fits line event.2)
    (hnode : nodes i = lineNodes i) (hbest : (lineClient i).header best.hash = some best) :
    ∃ nodes', LineReaches ((i, .sessionStarted ⟨0⟩ (some best)) :: events) nodes' i (lineClient i)
      lineBegun (lineWork (lineClient i) best) ∧ ∀ k, k ≠ i → nodes' k = nodes k := by
  have hstarted : NodeStep line (nodes i) (.sessionStarted ⟨0⟩ (some best)) { nodes i with
      node.aggregators := (nodes i).node.aggregators.insert ⟨0⟩ (.start (nodes i).client 9)
      sessions := (nodes i).sessions.insert ⟨0⟩ (lineWork (lineClient i) best) } :=
    .sessionStarted (by rw [hnode]; rfl)
  rw [hnode] at hstarted
  have hexpected : ExpectedInTurn line nodes (i, .sessionStarted ⟨0⟩ (some best)) := by
    refine ⟨⟨?_, ?_⟩, ?_⟩
    · rintro _ ⟨⟩
      rw [hnode]
      rfl
    · rintro header ⟨⟩
      rw [hnode]
      exact hbest
    · rintro _ ⟨⟩ hne
      exact absurd rfl hne
  have hzero : Consensus.Fits line
      (.aggregatorStarted ⟨0⟩ : Consensus.Event ℕ PlainKey PlainSignature) := by
    rw [Consensus.Fits]
    decide
  refine ⟨_, ⟨hrun.tail ⟨hexpected, _, by rwa [hnode], rfl⟩,
    List.forall_mem_cons.mpr ⟨hzero, hfits⟩, ?_, ?_, ?_⟩, ?_⟩
  · rw [Function.update_self]
    rfl
  · rw [Function.update_self]
    exact Finmap.lookup_insert _
  · rw [Function.update_self]
    exact Finmap.lookup_insert _
  · intro k hk
    exact Function.update_of_ne hk _ _

private def lineOrdered (i : Bool) : List (Bool × LineEvent) :=
  [(i, .aggregator ⟨0⟩ (.batch [⟨3, 2⟩])), (i, .authority ⟨0⟩ (.batchOrdered [⟨3, 2⟩]))]

private theorem line_orders {events : List (Bool × LineEvent)} {nodes : Bool → LineNode} {i : Bool}
    {client : Client ℕ} {work : LineSession} (h : LineReaches events nodes i client lineBegun work)
    (hdata : ⟨3, 2⟩ ∈ work.memberData) (hchannel : work.dataIo.orderedBatches = .unbounded) :
    ∃ nodes' work', LineReaches (lineOrdered i ++ events) nodes' i client
      { lineBegun with position := .processing [⟨3, 2⟩] } work' ∧
      ∀ k, k ≠ i → nodes' k = nodes k := by
  have hsent : work.dataIo.sendOrderedBatch [⟨3, 2⟩] =
      .ok { work.dataIo with orderedBatches := ⟨⟨[[⟨3, 2⟩]], true⟩, true⟩ } := by
    rw [DataIo.sendOrderedBatch, hchannel]
    rfl
  have hsubset : [⟨3, 2⟩] ⊆ work.memberData := by simpa using hdata
  obtain ⟨nodes₁, hordered, hothers₁⟩ := h.authority (.batchOrdered _)
    (.batchOrdered (by rw [hchannel]; rfl) hsent) hsubset
  obtain ⟨nodes₂, htaken, hothers₂⟩ := hordered.aggregator (.batch [⟨3, 2⟩] rfl rfl) ⟨[], rfl⟩
  refine ⟨nodes₂, _, htaken, ?_⟩
  intro k hk
  rw [hothers₂ k hk, hothers₁ k hk]

private def lineProposed : List (Bool × LineEvent) :=
  lineOrdered true ++
    [(true, .authority ⟨0⟩ .dataProposed), (true, .sessionStarted ⟨0⟩ (some ⟨3, 2, 2⟩))]

private theorem line_proposes : ∃ nodes work,
    LineReaches lineProposed nodes true (.ofLine 3 0)
      { lineBegun with position := .processing [⟨3, 2⟩] } work ∧ nodes false = lineNodes false := by
  obtain ⟨nodes₁, hstarted, hothers₁⟩ := line_starts true ⟨3, 2, 2⟩ .refl line_fits
    rfl rfl
  obtain ⟨nodes₂, hproposed, hothers₂⟩ := hstarted.authority .dataProposed .dataProposed trivial
  obtain ⟨nodes₃, work, htaken, hothers₃⟩ := line_orders hproposed List.mem_cons_self rfl
  refine ⟨nodes₃, work, htaken, ?_⟩
  rw [hothers₃ false (by simp), hothers₂ false (by simp), hothers₁ false (by simp)]

private def lineReceived : List (Bool × LineEvent) :=
  lineOrdered false ++ [(false, .authority ⟨0⟩ .messageReceived),
    (false, .authority ⟨0⟩ (.dataStore (.imported ⟨3, 2, 2⟩ (fun _ => [0])))),
    (false, .authority ⟨0⟩ (.dataStore (.clientAdvanced (.ofLine 3 0)))),
    (false, .finality (.headersImported (Client.ofLine 3 0).toHeaderStore 3)),
    (false, .authority ⟨0⟩ (.dataStore (.received ⟨[⟨3, 2⟩]⟩ [.ofLine 1 0] (fun _ => [])))),
    (false, .sessionStarted ⟨0⟩ (some ⟨2, 1, 1⟩))]

private theorem line_receives {events : List (Bool × LineEvent)} {nodes : Bool → LineNode}
    (hrun : Run (Guarded (Step line) (ExpectedInTurn line)) lineNodes events nodes)
    (hfits : ∀ event ∈ consensusEvents events, Consensus.Fits line event.2)
    (hnode : nodes false = lineNodes false) :
    ∃ nodes' work, LineReaches (lineReceived ++ events) nodes' false (.ofLine 3 0)
      { lineBegun with position := .processing [⟨3, 2⟩] } work ∧ nodes' true = nodes true := by
  obtain ⟨nodes₁, hstarted, hothers₁⟩ := line_starts false ⟨2, 1, 1⟩ hrun hfits hnode rfl
  have hgrows : (Client.ofLine 1 0).Grows (Client.ofLine 3 0) :=
    Client.ofLine_grows (by decide) (Nat.le_refl 0)
  have hreceivable : DataStore.Admissible (lineWork (.ofLine 1 0) ⟨2, 1, 1⟩).dataStore
      (.received ⟨[⟨3, 2⟩]⟩ [.ofLine 1 0] (fun _ => [])) :=
    ⟨by decide, rfl, .cons_cons (.refl _) (.singleton _)⟩
  obtain ⟨nodes₂, hstored, hothers₂⟩ := hstarted.authority
    (.dataStore (.received ⟨[⟨3, 2⟩]⟩ [.ofLine 1 0] (fun _ => [])))
    (.dataStore ⟨hreceivable, rfl⟩ (.refl _)) trivial
  obtain ⟨nodes₃, himported, hothers₃⟩ := hstored.imports
  obtain ⟨nodes₄, hadvanced, hothers₄⟩ := himported.authority
    (.dataStore (.clientAdvanced (.ofLine 3 0))) (.dataStore ⟨hgrows, rfl⟩ (.refl _)) trivial
  obtain ⟨nodes₅, hreleased, hothers₅⟩ := hadvanced.authority
    (.dataStore (.imported ⟨3, 2, 2⟩ (fun _ => [0])))
    (.dataStore ⟨by show DataStore.IsOrderFor _ _; decide, rfl⟩ (.refl _)) rfl
  obtain ⟨nodes₆, hreceived, hothers₆⟩ :=
    hreleased.authority .messageReceived (.messageReceived rfl) trivial
  obtain ⟨nodes₇, work, htaken, hothers₇⟩ := line_orders hreceived List.mem_cons_self rfl
  refine ⟨nodes₇, work, htaken, ?_⟩
  rw [hothers₇ true (by simp), hothers₆ true (by simp), hothers₅ true (by simp),
    hothers₄ true (by simp), hothers₃ true (by simp), hothers₂ true (by simp),
    hothers₁ true (by simp)]

private def lineSigned : RunAggregator ℕ PlainSignature :=
  { lineBegun.processData (Client.ofLine 3 0).toHeaderStore ⟨3, 2⟩ with position := .processing [] }

private theorem lineSigned_startedRmc : lineSigned.aggregator.startedRmc = [2, 3] := by decide

private theorem line_handles {events : List (Bool × LineEvent)} {nodes : Bool → LineNode} {i : Bool}
    {work : LineSession} (h : LineReaches events nodes i (.ofLine 3 0)
      { lineBegun with position := .processing [⟨3, 2⟩] } work) :
    ∃ nodes', LineReaches ((i, .aggregator ⟨0⟩ (.data ⟨3, 2⟩)) :: events) nodes' i (.ofLine 3 0)
      lineSigned work ∧ ∀ k, k ≠ i → nodes' k = nodes k := by
  have hstep : RunAggregator.Step (Client.ofLine 3 0).toHeaderStore
      ({ lineBegun with position := .processing [⟨3, 2⟩] } : RunAggregator ℕ PlainSignature)
      (.data ⟨3, 2⟩) lineSigned := .data rfl
  exact h.aggregator hstep trivial

private theorem line_completes {events : List (Bool × LineEvent)} {nodes : Bool → LineNode} {i : Bool}
    {client : Client ℕ} {work : LineSession} (h : LineReaches events nodes i client lineSigned work)
    (signature : SignatureSet PlainSignature) :
    ∃ events' nodes', ∃ work' task', LineReaches events' nodes' i client task' work' ∧ ∃ aggregator,
      task'.aggregator.nextMultisignedHash = (aggregator, .returned 2 signature) := by
  obtain ⟨nodes₁, hdone, _⟩ := h.aggregator (.batchDone rfl) trivial
  obtain ⟨nodes₂, hcompleted, _⟩ := hdone.aggregator (.rmcCompleted 2 signature rfl rfl) trivial
  exact ⟨_, _, _, _, hcompleted, _, rfl⟩

/-- The data store keeps a message back until its block is imported. The block is then available
when the aggregator comes to it, and the number of a multisigned block can be unwrapped. -/
theorem items_available_line : ∃ nodes nodes' : Bool → LineNode, ∃ task task',
    (nodes false).node.aggregators.lookup ⟨0⟩ = some task ∧
      RunAggregator.pendingItems task.position = [⟨3, 2⟩] ∧
      DataStore.Available (nodes false).client ⟨3, 2⟩ ∧
      (nodes' false).node.aggregators.lookup ⟨0⟩ = some task' ∧ ∃ aggregator signature,
        task'.aggregator.nextMultisignedHash = (aggregator, .returned 2 signature) ∧
        Returns ({ task' with aggregator := aggregator }.sendJustification
          (nodes' false).client.toHeaderStore 2 signature) := by
  obtain ⟨nodes₁, work₁, hreceived, _⟩ := line_receives .refl line_fits rfl
  obtain ⟨nodes₂, hhandled, _⟩ := line_handles hreceived
  obtain ⟨_, nodes₃, work₃, task, hcompleted, aggregator, hpoll⟩ := line_completes hhandled
    (JustificationHandler.singleJustification 2).signature
  have hpending := items_available lineNodes_atStart hreceived.expected hreceived.running
  have hnumber := items_available lineNodes_atStart hcompleted.expected hcompleted.running
  refine ⟨nodes₁, nodes₃, _, task, hreceived.running, rfl, ?_, hcompleted.running, aggregator, _,
    hpoll, ?_⟩
  · exact hpending.1 ⟨3, 2⟩ List.mem_cons_self
  · exact hnumber.2 aggregator 2 _ hpoll

private def agreeingEvents : List (Bool × LineEvent) :=
  (false, .aggregator ⟨0⟩ (.data ⟨3, 2⟩)) ::
    (lineReceived ++ (true, .aggregator ⟨0⟩ (.data ⟨3, 2⟩)) :: lineProposed)

private theorem agreeing_sent : OrderedAlike ⟨0⟩ [⟨3, 2⟩] agreeingEvents := by
  intro i
  cases i with
  | true => exact List.prefix_rfl
  | false => exact List.prefix_rfl

/-- The member of one node proposes a block, that of the other node receives it later, and both
aggregators sign it and the block below. -/
theorem aggregators_agree_line : ∃ nodes : Bool → LineNode, ∃ task task',
    (nodes true).node.aggregators.lookup ⟨0⟩ = some task ∧
    (nodes false).node.aggregators.lookup ⟨0⟩ = some task' ∧ 3 ∈ task.aggregator.startedRmc ∧
    OnOneChain line.tree.IsParent 3 2 ∧ (3 ∈ task'.aggregator.startedRmc ∨
      AncestorOrEqual line.tree.IsParent 3 (nodes false).client.finalizedHash) := by
  obtain ⟨nodes₁, _, hproposed, hother₁⟩ := line_proposes
  obtain ⟨nodes₂, hfirst, hothers₂⟩ := line_handles hproposed
  obtain ⟨nodes₃, _, hreceived, hother₃⟩ := line_receives hfirst.run hfirst.fits
    (by rw [hothers₂ false (by simp), hother₁])
  obtain ⟨nodes₄, hsecond, hothers₄⟩ := line_handles hreceived
  have htrue : nodes₄ true = nodes₂ true := by
    rw [hothers₄ true (by simp), hother₃]
  have hwithin : ∀ i, Consensus.Within line ⟨0⟩ (nodes₄ i).node := by
    intro i
    have hclient : (nodes₄ i).node.finality.handler.client = .ofLine 3 0 := by
      cases i with
      | true => rw [htrue]; exact hfirst.client
      | false => exact hsecond.client
    rw [Consensus.Within, hclient]
    exact Nat.zero_le _
  have hfew : 3 * (line.byzantine ⟨0⟩).card < (line.authorities ⟨0⟩).length := by decide
  have hrun : Run (Guarded (Step line) (ExpectedInTurn line)) lineNodes agreeingEvents nodes₄ :=
    hsecond.run
  have hrunning : (nodes₄ true).node.aggregators.lookup ⟨0⟩ = some lineSigned := by
    rw [htrue]
    exact hfirst.running
  have hagree := aggregators_agree (fun _ => hfew) lineNodes_atStart hrun hsecond.fits agreeing_sent
    hrunning hsecond.running (hwithin true) (hwithin false)
  have hmem : 3 ∈ lineSigned.aggregator.startedRmc := by simp [lineSigned_startedRmc]
  refine ⟨nodes₄, lineSigned, lineSigned, hrunning, hsecond.running, hmem, ?_, ?_⟩
  · exact hagree.1 3 hmem 2 (by simp [lineSigned_startedRmc])
  · exact hagree.2 rfl List.prefix_rfl 3 hmem

end Example
end AuthorityNode
end AlephNode
