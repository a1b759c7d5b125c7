import AlephNode.QuorumIntersection
import AlephNode.SessionedChains
import AlephNode.SoundNodes

/-!
# Finality

What an honest node signs in a session is one chain, so two blocks of one session that are
justified by quorums lie on one chain; and an aggregator begins only where the session
before is finalized, so the finalized chain continues across sessions.
-/
namespace AlephNode.Consensus

section Safety
variable {ι Hash A S : Type} {consensus : Consensus ι Hash A} {nodes : ι → Node Hash A S}
  {session : SessionId} {b c : Hash}

private theorem honest_of_not_byzantine {k : ℕ}
    (hrange : k ∈ Finset.range (consensus.authorities session).length)
    (hhonest : k ∉ consensus.byzantine session) :
    ∃ authority j, (consensus.authorities session)[k]? = some authority ∧
      consensus.owner authority = some j := by
  rw [byzantine, Finset.mem_filter, not_and] at hhonest
  have hsome := hhonest hrange
  rw [Option.isNone_iff_eq_none] at hsome
  obtain ⟨j, hj⟩ := Option.ne_none_iff_exists'.mp hsome
  obtain ⟨authority, hauthority, howner⟩ := Option.bind_eq_some_iff.mp hj
  exact ⟨authority, j, hauthority, howner⟩

theorem exists_started_both
    (hfew : 3 * (consensus.byzantine session).card < (consensus.authorities session).length)
    {started : ι → Hash → Prop} (hb : Quorum consensus started session b)
    (hc : Quorum consensus started session c) : ∃ j, started j b ∧ started j c := by
  obtain ⟨left, hleft, hleft_card, hleft_started⟩ := hb
  obtain ⟨right, hright, hright_card, hright_started⟩ := hc
  obtain ⟨k, hk, hk', hhonest⟩ := exists_honest_in_both hleft hright hfew hleft_card hright_card
  obtain ⟨authority, j, hauthority, howner⟩ := honest_of_not_byzantine (hleft hk) hhonest
  exact ⟨j, hleft_started k hk authority j hauthority howner,
    hright_started k hk' authority j hauthority howner⟩

section Sound
variable (hsound : ∀ i, Sound consensus (Finalized nodes) (Started nodes) (nodes i))
  (hperiod : 0 < consensus.sessionPeriod.val.toNat)
include hsound

theorem justified_of_finalized (hb : Finalized nodes b) :
    Justified consensus (Started nodes) b := by
  obtain ⟨i, call, hcall, hsucceeded, rfl⟩ := hb
  exact (hsound i).justified call hcall hsucceeded

include hperiod

/-- What a node has started lies in the session of the aggregator that started it. -/
theorem started_in_session {j : ι} (hb : Started nodes j b) :
    ∃ session task base, (nodes j).aggregators.lookup session = some task ∧
      RunAggregator.StartedChain consensus.tree base task ∧ b ∈ task.aggregator.startedRmc ∧
      Base consensus (Finalized nodes) session base ∧
      consensus.tree.height b / consensus.sessionPeriod.val.toNat = session.val.toNat := by
  obtain ⟨session, task, hlookup, hmem⟩ := hb
  obtain ⟨hlast, base, hbase, hchain⟩ := (hsound j).chains session task hlookup
  have habove := (hchain.ancestor_base hmem).2
  have hbelow := hlast ▸ hchain.bounded b hmem
  exact ⟨session, task, base, hlookup, hchain, hmem, hbase,
    (number_in_session hperiod hbase.2 habove hbelow).2.1⟩

/-- The finalized blocks with the genesis block are chains across sessions. -/
theorem sessionedChains (hfew : ∀ session,
      3 * (consensus.byzantine session).card < (consensus.authorities session).length) :
    SessionedChains consensus.tree.IsParent consensus.tree.height
      consensus.sessionPeriod.val.toNat (fun b => b = consensus.genesis ∨ Finalized nodes b)
      consensus.genesis where
  height_lt _ _ h := h.height_lt
  period_pos := hperiod
  root_height := by rw [HeaderStore.height, consensus.genesis_number, Option.getD_some]
  based b hb hgenesis := by
    obtain ⟨session, _, _, hheight, hquorum⟩ :=
      justified_of_finalized hsound (hb.resolve_left hgenesis)
    obtain ⟨j, hstarted, _⟩ := exists_started_both (hfew session) hquorum hquorum
    obtain ⟨session', task, base, _, hchain, hmem, hbase, hheight'⟩ :=
      started_in_session hsound hperiod hstarted
    obtain ⟨hancestor, hlt⟩ := hchain.ancestor_base hmem
    rw [hheight']
    exact ⟨base, hbase.1, hancestor, hlt, hbase.2⟩
  together b c hb hc hb_genesis hc_genesis hheights := by
    obtain ⟨session, _, _, hb_height, hb_quorum⟩ :=
      justified_of_finalized hsound (hb.resolve_left hb_genesis)
    obtain ⟨session', _, _, hc_height, hc_quorum⟩ :=
      justified_of_finalized hsound (hc.resolve_left hc_genesis)
    have hsame : session' = session := by
      rw [hb_height, hc_height] at hheights
      exact session_ext hheights.symm
    subst hsame
    obtain ⟨j, hb_started, hc_started⟩ := exists_started_both (hfew session') hb_quorum hc_quorum
    obtain ⟨s, task, base, hlookup, hchain, hb_mem, _, hs⟩ :=
      started_in_session hsound hperiod hb_started
    obtain ⟨s', task', _, hlookup', _, hc_mem, _, hs'⟩ :=
      started_in_session hsound hperiod hc_started
    -- both blocks were started by the one aggregator of the node in their session
    have hsession : s' = s := session_ext (by rw [← hs, ← hs', hheights])
    subst hsession
    rw [hlookup, Option.some.injEq] at hlookup'
    subst hlookup'
    exact onOneChain_of_isChain hchain.chain (List.mem_cons_of_mem _ hb_mem)
      (List.mem_cons_of_mem _ hc_mem)

end Sound

/-- Finality is safe: with fewer than a third of the authorities of every session Byzantine,
any two blocks that honest nodes finalize lie on one chain, in every run in which the last block
of a session is computed without overflow when an aggregator of the next session starts. -/
theorem finalized_on_one_chain [SignatureScheme A S] [MultiKeychain S] [Codec Hash]
    [Codec (SignatureSet S)] [DecidableEq Hash] [DecidableEq ι]
    (hfew : ∀ session,
      3 * (consensus.byzantine session).card < (consensus.authorities session).length)
    {start : ι → Node Hash A S} (hstart : ∀ i, AtGenesis consensus (start i))
    {events : List (ι × Event Hash A S)}
    (hrun : Run (Guarded (Step consensus) (Assumed consensus)) start events nodes)
    (hfits : ∀ event ∈ events, Fits consensus event.2)
    (hb : Finalized nodes b) (hc : Finalized nodes c) :
    OnOneChain consensus.tree.IsParent b c := by
  have hsound := sound_of_run hstart hrun hfits
  rcases justified_of_finalized hsound hb with ⟨_, hperiod, _⟩
  exact (sessionedChains hsound hperiod hfew).onOneChain (.inr hb) (.inr hc)

end Safety

section Example
attribute [local instance] nodeIndexCodec

/-- Two nodes. The node `true` is the only authority. -/
def sole (client : Client ℕ) (period : SessionPeriod) (h : client.number 1 = some 0) :
    Consensus Bool ℕ PlainKey where
  tree := client.toHeaderStore
  genesis := 1
  sessionPeriod := period
  authorities _ := [⟨7⟩]
  owner _ := some true
  genesis_number := h

def line : Consensus Bool ℕ PlainKey := sole (Client.ofLine 3 0) ⟨10⟩ rfl

def lineStart (_ : Bool) : Node ℕ PlainKey PlainSignature :=
  ⟨⟨JustificationHandler.singleAuthority ⟨10⟩, .top⟩, ∅⟩

theorem lineStart_atGenesis (i : Bool) : AtGenesis line (lineStart i) where
  loop := rfl
  finalizeCalls := rfl
  sessionPeriod := rfl
  sessionAuthorities _ _ hlookup := JustificationHandler.singleAuthority_lookup ⟨10⟩ hlookup
  headers := HeaderStore.Subset.refl _
  finalizedHash := rfl
  finalizedNumber := rfl
  aggregators := rfl

section Runs
variable {client : Client ℕ} {period : SessionPeriod} {hgenesis : client.number 1 = some 0}
  {start nodes : Bool → Node ℕ PlainKey PlainSignature}
  {good : Event ℕ PlainKey PlainSignature → Prop} {i : Bool}

private def Reached (consensus : Consensus Bool ℕ PlainKey)
    (start : Bool → Node ℕ PlainKey PlainSignature) (good : Event ℕ PlainKey PlainSignature → Prop)
    (nodes : Bool → Node ℕ PlainKey PlainSignature) : Prop :=
  ∃ events, Run (Guarded (Step consensus) (Assumed consensus)) start events nodes ∧
    ∀ event ∈ events, good event.2

private theorem Reached.step {event : Event ℕ PlainKey PlainSignature}
    {before after : Node ℕ PlainKey PlainSignature} {consensus : Consensus Bool ℕ PlainKey}
    (h : Reached consensus start good nodes) (i : Bool) (hbefore : nodes i = before)
    (hstep : NodeStep consensus before event after)
    (hassumed : NodeAssumed consensus (Started nodes) before event)
    (hturn : InTurn consensus before event) (hgood : good event) :
    Reached consensus start good (Function.update nodes i after) := by
  rcases h with ⟨events, hrun, hall⟩
  subst hbefore
  exact ⟨(i, event) :: events, hrun.tail ⟨⟨hassumed, hturn⟩, after, hstep, rfl⟩,
    List.forall_mem_cons.mpr ⟨hgood, hall⟩⟩

private theorem Started.update {hash : ℕ} (h : Started nodes true hash)
    (finality : JustificationHandler.Task ℕ PlainKey) :
    Started (Function.update nodes i ⟨finality, (nodes i).aggregators⟩) true hash := by
  rcases h with ⟨session, task, hlookup, hmem⟩
  refine ⟨session, task, ?_, hmem⟩
  by_cases hi : i = true
  · subst hi
    rwa [Function.update_self]
  · rwa [Function.update_of_ne (Ne.symm hi)]

private theorem Reached.finalize {handler handler' : JustificationHandler ℕ PlainKey}
    {keybox : KeyBox PlainKey} {lastFinalized stopH : ℕ}
    (h : Reached (sole client period hgenesis) start good nodes) (i : Bool)
    (notification : JustificationNotification ℕ PlainSignature)
    (htop : (nodes i).finality = ⟨handler, .top⟩)
    (hiterate : handler.iterate = .ok ⟨handler, .waiting keybox lastFinalized stopH⟩)
    (hhandled : handler.handleJustificationNotification notification keybox lastFinalized stopH 0
      true = .ok handler')
    (hnumber : ∀ header, handler.client.header notification.hash = some header →
      header.number = notification.number)
    (hstarted : Started nodes true notification.hash) (hgood : ∀ event, good (.finality event)) :
    Reached (sole client period hgenesis) start good
      (Function.update nodes i ⟨⟨handler', .top⟩, (nodes i).aggregators⟩) := by
  have hnode : nodes i = ⟨⟨handler, .top⟩, (nodes i).aggregators⟩ := by
    rw [← htop]
  have hwaiting := h.step i hnode (.finality (.iterate hiterate)) trivial trivial (hgood _)
  have hnotified : NodeStep (sole client period hgenesis)
      ⟨⟨handler, .waiting keybox lastFinalized stopH⟩, (nodes i).aggregators⟩
      (.finality (.notified notification 0 true 0 none))
      ⟨⟨handler'.requestJustification 0 none, .top⟩, (nodes i).aggregators⟩ :=
    .finality (.notified hhandled)
  have hrequested := hwaiting.step i (Function.update_self _ _ _) hnotified
    ⟨hnumber, fun _ _ _ _ _ howner => Option.some.inj howner ▸ hstarted.update _⟩ trivial (hgood _)
  rwa [JustificationHandler.requestJustification, ite_self, Function.update_idem] at hrequested

private def handled (task : RunAggregator ℕ PlainSignature) (store : HeaderStore ℕ)
    (newData : AlephData ℕ) : RunAggregator ℕ PlainSignature :=
  { { task with position := .processing [newData] }.processData store newData with
    position := .processing [] }

private theorem Reached.handle {task : RunAggregator ℕ PlainSignature}
    (h : Reached (sole client period hgenesis) start good nodes) (session : SessionId)
    (newData : AlephData ℕ)
    (hrunning : (nodes true).aggregators.lookup session = some task)
    (hselect : task.position = .select) (hunseen : task.lastBlockSeen = false)
    (hgood : ∀ event, good (.aggregator session event)) :
    Reached (sole client period hgenesis) start good (Function.update nodes true
      ⟨(nodes true).finality, (nodes true).aggregators.insert session
        (handled task (nodes true).finality.handler.client.toHeaderStore newData)⟩) := by
  have hbatch := h.step true rfl (.aggregator hrunning (.batch [newData] hselect hunseen)) trivial trivial
    (hgood _)
  have hdata := hbatch.step true (Function.update_self _ _ _)
    (.aggregator (Finmap.lookup_insert _) (.data rfl)) trivial trivial (hgood _)
  rwa [Function.update_idem, Finmap.insert_insert] at hdata

end Runs

private theorem line_finalizes :
    ∃ nodes, Reached line lineStart (Fits line) nodes ∧ Finalized nodes 2 ∧ Finalized nodes 3 := by
  have hstart : Reached line lineStart (Fits line) lineStart := ⟨[], .refl, by simp⟩
  have hfits : Fits line (.aggregatorStarted ⟨0⟩ : Event ℕ PlainKey PlainSignature) := by
    rw [Fits]
    decide
  have hbegun := hstart.step true rfl (.aggregatorStarted ⟨0⟩) rfl (fun h => absurd rfl h) hfits
  have hsigned := hbegun.handle ⟨0⟩ ⟨3, 2⟩ (Finmap.lookup_insert _) rfl rfl (fun _ => trivial)
  have hfirst := hsigned.finalize true (JustificationHandler.singleNotification 1) rfl rfl rfl
    JustificationHandler.ofLine_number ⟨⟨0⟩, _, Finmap.lookup_insert _, by decide⟩ (fun _ => trivial)
  have hsecond := hfirst.finalize false (JustificationHandler.singleNotification 2) rfl rfl rfl
    JustificationHandler.ofLine_number
    (.update ⟨⟨0⟩, _, Finmap.lookup_insert _, by decide⟩ _) (fun _ => trivial)
  refine ⟨_, hsecond, ?_, ?_⟩
  · exact ⟨true, _, List.mem_cons_self, rfl, rfl⟩
  · exact ⟨false, _, List.mem_cons_self, rfl, rfl⟩

/-- The authority has started two blocks, finalizes the first of them, and the other node
finalizes the second. -/
theorem finalized_on_one_chain_line : ∃ nodes : Bool → Node ℕ PlainKey PlainSignature,
    Finalized nodes 2 ∧ Finalized nodes 3 ∧ OnOneChain line.tree.IsParent 2 3 := by
  rcases line_finalizes with ⟨nodes, ⟨events, hrun, hfits⟩, hb, hc⟩
  have hfew : 3 * (line.byzantine ⟨0⟩).card < (line.authorities ⟨0⟩).length := by decide
  exact ⟨nodes, hb, hc,
    finalized_on_one_chain (fun _ => hfew) lineStart_atGenesis hrun hfits hb hc⟩

def forked : Client ℕ where
  header h := if 0 < h ∧ h ≤ 4 then some ⟨h, min (h - 1) 2, min (h - 1) 2⟩ else none
  hash_eq h hd hknown := by
    split at hknown
    · cases hknown
      rfl
    · cases hknown
  number_eq h hd pd hknown hparent := by
    split at hknown
    · cases hknown
      dsimp only at hparent ⊢
      split at hparent
      · cases hparent
        dsimp only
        omega
      · cases hparent
    · cases hknown
  finalizedHash := 1
  finalizedNumber := 0
  bestNumber := 2

/-- With this period the last block of session 1 is computed as block 1. -/
def wrappingPeriod : SessionPeriod := ⟨2147483649⟩

def fork : Consensus Bool ℕ PlainKey := sole forked wrappingPeriod rfl

def forkStart (_ : Bool) : Node ℕ PlainKey PlainSignature :=
  ⟨⟨{ JustificationHandler.singleAuthority wrappingPeriod with client := forked }, .top⟩, ∅⟩

private theorem forkStart_atGenesis (i : Bool) : AtGenesis fork (forkStart i) where
  loop := rfl
  finalizeCalls := rfl
  sessionPeriod := rfl
  sessionAuthorities _ _ hlookup :=
    JustificationHandler.singleAuthority_lookup wrappingPeriod hlookup
  headers := HeaderStore.Subset.refl _
  finalizedHash := rfl
  finalizedNumber := rfl
  aggregators := rfl

private theorem forked_number {hash number : ℕ} (h : number = min (hash - 1) 2) :
    ∀ header, forked.header hash = some header → header.number = number := by
  intro header hknown
  simp only [forked] at hknown
  split at hknown
  · cases hknown
    exact h.symm
  · cases hknown

private theorem fork_finalizes :
    ∃ nodes, Reached fork forkStart (fun _ => True) nodes ∧ Finalized nodes 3 ∧ Finalized nodes 4 := by
  have hstart : Reached fork forkStart (fun _ => True) forkStart := ⟨[], .refl, by simp⟩
  have hbegun := hstart.step true rfl (.aggregatorStarted ⟨0⟩) rfl (fun h => absurd rfl h) trivial
  have hsigned := hbegun.handle ⟨0⟩ ⟨3, 2⟩ (Finmap.lookup_insert _) rfl rfl (fun _ => trivial)
  have hfirst := hsigned.finalize true (JustificationHandler.singleNotification 1) rfl rfl rfl
    (forked_number rfl) ⟨⟨0⟩, _, Finmap.lookup_insert _, by decide⟩ (fun _ => trivial)
  -- the finalized number is 1 now, and so is what is computed as the last block of session 1
  have hwrapped := hfirst.step true rfl (.aggregatorStarted ⟨2⟩) rfl (fun _ => by decide) trivial
  have hconflict := hwrapped.handle ⟨2⟩ ⟨4, 2⟩ (Finmap.lookup_insert _) rfl rfl (fun _ => trivial)
  have hsecond := hconflict.finalize true (JustificationHandler.singleNotification 2) rfl rfl rfl
    (forked_number rfl) ⟨⟨0⟩, _, rfl, by decide⟩ (fun _ => trivial)
  have hthird := hsecond.finalize false ⟨JustificationHandler.singleJustification 4, 4, 2⟩ rfl rfl rfl
    (forked_number rfl) (.update ⟨⟨2⟩, _, Finmap.lookup_insert _, by decide⟩ _) (fun _ => trivial)
  refine ⟨_, hthird, ?_, ?_⟩
  · exact ⟨true, _, List.mem_cons_self, rfl, rfl⟩
  · exact ⟨false, _, List.mem_cons_self, rfl, rfl⟩

private theorem fork_conflict : ¬OnOneChain fork.tree.IsParent 3 4 := by
  intro hchain
  have hancestor := hchain.ancestor_of_rank_le (fun _ _ hparent => hparent.height_lt) (Nat.le_refl 2)
  have hsame := hancestor.eq_of_rank_le (fun _ _ hparent => hparent.height_lt) (Nat.le_refl 2)
  cases hsame

/-- Where the last block of a session wraps, an aggregator of session 2 starts while session 0 is
running. The authority signs a block in each of them, and the two nodes finalize one each. -/
theorem conflicting_blocks_finalized :
    (∀ session, 3 * (fork.byzantine session).card < (fork.authorities session).length) ∧
      (∀ i, AtGenesis fork (forkStart i)) ∧
      ∃ (events : List (Bool × Event ℕ PlainKey PlainSignature))
        (nodes : Bool → Node ℕ PlainKey PlainSignature),
        Run (Guarded (Step fork) (Assumed fork)) forkStart events nodes ∧
        Finalized nodes 3 ∧ Finalized nodes 4 ∧ ¬OnOneChain fork.tree.IsParent 3 4 := by
  rcases fork_finalizes with ⟨nodes, ⟨events, hrun, _⟩, hb, hc⟩
  have hfew : 3 * (fork.byzantine ⟨0⟩).card < (fork.authorities ⟨0⟩).length := by decide
  exact ⟨fun _ => hfew, forkStart_atGenesis, events, nodes, hrun, hb, hc, fork_conflict⟩

end Example
end AlephNode.Consensus
