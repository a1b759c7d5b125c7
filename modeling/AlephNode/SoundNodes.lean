import AlephNode.HonestNodes
import AlephNode.JustificationVerification
import AlephNode.StartedChains

/-!
# What holds of honest nodes

In every state that the honest nodes reach together, a finalized block lies in a session
and is justified by a quorum of it, whose honest members have started the block; and what
an aggregator has started is a chain above a finalized block that reaches its session.
-/
namespace AlephNode.Consensus
variable {ι Hash A S : Type}

section Invariant
variable {consensus : Consensus ι Hash A}

/-- More than two thirds of the authorities of the session, of which the honest ones have
started the hash. -/
def Quorum (consensus : Consensus ι Hash A) (started : ι → Hash → Prop) (session : SessionId)
    (hash : Hash) : Prop :=
  ∃ quorum ⊆ Finset.range (consensus.authorities session).length,
    2 * (consensus.authorities session).length / 3 < quorum.card ∧
    ∀ k ∈ quorum, ∀ authority j, (consensus.authorities session)[k]? = some authority →
      consensus.owner authority = some j → started j hash

/-- A finalized block has the number of a session, and a quorum of this session. -/
def Justified (consensus : Consensus ι Hash A) (started : ι → Hash → Prop) (hash : Hash) : Prop :=
  ∃ session, 0 < consensus.sessionPeriod.val.toNat ∧ 0 < consensus.tree.height hash ∧
    consensus.tree.height hash / consensus.sessionPeriod.val.toNat = session.val.toNat ∧
    Quorum consensus started session hash

/-- The block where an aggregator of the session may begin. -/
def Base (consensus : Consensus ι Hash A) (finalized : Hash → Prop) (session : SessionId)
    (base : Hash) : Prop :=
  (base = consensus.genesis ∨ finalized base) ∧
    session.val.toNat * consensus.sessionPeriod.val.toNat ≤ consensus.tree.height base + 1

/-- What holds of a node, given which blocks are finalized and which hashes are started. -/
structure Sound (consensus : Consensus ι Hash A) (finalized : Hash → Prop)
    (started : ι → Hash → Prop) (node : Node Hash A S) : Prop where
  sessionPeriod : node.finality.handler.chainCadence.sessionPeriod = consensus.sessionPeriod
  sessionAuthorities : ∀ session authorities,
    node.finality.handler.sessionAuthorities.lookup session = some authorities →
      authorities = consensus.authorities session
  headers : node.finality.handler.client.toHeaderStore.Subset consensus.tree
  number : consensus.tree.number node.finality.handler.client.finalizedHash =
    some node.finality.handler.client.finalizedNumber
  finalizedHash : node.finality.handler.client.finalizedHash = consensus.genesis ∨
    finalized node.finality.handler.client.finalizedHash
  waiting : ∀ keybox lastFinalized stopH,
    node.finality.loop = .waiting keybox lastFinalized stopH →
    ∃ session, sessionIdFromBlockNum (lastFinalized + 1) consensus.sessionPeriod = .ok session ∧
      stopH = lastBlockOfSession session consensus.sessionPeriod ∧
      keybox.authorities = consensus.authorities session
  justified : ∀ call ∈ node.finality.handler.finalizeCalls, call.succeeded = true →
    Justified consensus started call.hash
  chains : ∀ session task, node.aggregators.lookup session = some task →
    task.lastBlockInSession = lastBlockOfSession session consensus.sessionPeriod ∧
    ∃ base, Base consensus finalized session base ∧
      RunAggregator.StartedChain consensus.tree base task

section Monotone
variable {finalized finalized' : Hash → Prop} {started started' : ι → Hash → Prop}
  {node : Node Hash A S}

theorem Justified.mono (hstarted : ∀ i h, started i h → started' i h) {hash : Hash}
    (h : Justified consensus started hash) : Justified consensus started' hash := by
  obtain ⟨session, hperiod, hpos, hheight, quorum, hrange, hcard, hquorum⟩ := h
  refine ⟨session, hperiod, hpos, hheight, quorum, hrange, hcard, ?_⟩
  exact fun k hk authority j hauthority howner =>
    hstarted j hash (hquorum k hk authority j hauthority howner)

theorem Base.mono (hfinalized : ∀ h, finalized h → finalized' h) {session : SessionId}
    {base : Hash} (h : Base consensus finalized session base) :
    Base consensus finalized' session base :=
  ⟨h.1.imp id (hfinalized base), h.2⟩

theorem Sound.mono (hfinalized : ∀ h, finalized h → finalized' h)
    (hstarted : ∀ i h, started i h → started' i h) (h : Sound consensus finalized started node) :
    Sound consensus finalized' started' node where
  sessionPeriod := h.sessionPeriod
  sessionAuthorities := h.sessionAuthorities
  headers := h.headers
  number := h.number
  finalizedHash := h.finalizedHash.imp id (hfinalized _)
  waiting := h.waiting
  justified call hcall hsucceeded := (h.justified call hcall hsucceeded).mono hstarted
  chains session task hlookup := by
    obtain ⟨hlast, base, hbase, hchain⟩ := h.chains session task hlookup
    exact ⟨hlast, base, hbase.mono hfinalized, hchain⟩

theorem sound_atGenesis (h : AtGenesis consensus node) :
    Sound consensus finalized started node where
  sessionPeriod := h.sessionPeriod
  sessionAuthorities := h.sessionAuthorities
  headers := h.headers
  number := by rw [h.finalizedHash, h.finalizedNumber, consensus.genesis_number]
  finalizedHash := .inl h.finalizedHash
  waiting _ _ _ hwaiting := by simp [h.loop] at hwaiting
  justified := by simp [h.finalizeCalls]
  chains := by simp [h.aggregators]

private theorem Sound.congr (h : Sound consensus finalized started node)
    {task : JustificationHandler.Task Hash A}
    (hcadence : task.handler.chainCadence = node.finality.handler.chainCadence)
    (hmap : task.handler.sessionAuthorities = node.finality.handler.sessionAuthorities)
    (hclient : task.handler.client = node.finality.handler.client)
    (hcalls : ∀ call ∈ task.handler.finalizeCalls, call.succeeded = true →
      call ∈ node.finality.handler.finalizeCalls)
    (hloop : ∀ keybox lastFinalized stopH, task.loop = .waiting keybox lastFinalized stopH →
      node.finality.loop = .waiting keybox lastFinalized stopH) :
    Sound consensus finalized started { node with finality := task } where
  sessionPeriod := by rw [hcadence, h.sessionPeriod]
  sessionAuthorities := by
    rw [hmap]
    exact h.sessionAuthorities
  headers := by
    rw [hclient]
    exact h.headers
  number := by
    rw [hclient]
    exact h.number
  finalizedHash := by
    rw [hclient]
    exact h.finalizedHash
  waiting keybox lastFinalized stopH hwaiting := h.waiting _ _ _ (hloop _ _ _ hwaiting)
  justified call hcall hsucceeded := h.justified call (hcalls call hcall hsucceeded) hsucceeded
  chains := h.chains

end Monotone

section NodeSteps
variable [SignatureScheme A S] [MultiKeychain S] [Codec Hash] [Codec (SignatureSet S)]
  {finalized finalized' : Hash → Prop} {started started' : ι → Hash → Prop}
  {handler handler' : JustificationHandler Hash A} {keybox : KeyBox A}
  {lastFinalized stopH now : ℕ} {notification : JustificationNotification Hash S}
  {aggregators : FiniteMap SessionId (RunAggregator Hash S)}

omit [Codec (SignatureSet S)] in
private theorem quorum_of_complete {session : SessionId} {hash : Hash}
    {justification : AlephJustification S}
    (hcomplete : Complete (consensus.authorities session) hash justification)
    (hunforged : ∀ authority j, ∀ e ∈ justification.signature.present,
      SignatureScheme.verify authority (Codec.encode hash) e.2.sgn = true →
      consensus.owner authority = some j → started j hash) :
    Quorum consensus started session hash := by
  obtain ⟨quorum, hrange, hcard, hquorum⟩ := hcomplete.exists_quorum
  refine ⟨quorum, hrange, hcard, ?_⟩
  intro k hk authority j hauthority howner
  obtain ⟨e, he, rfl, authority', hauthority', hverify⟩ := hquorum k hk
  rw [hauthority, Option.some.injEq] at hauthority'
  subst hauthority'
  exact hunforged authority j e he hverify howner

omit [SignatureScheme A S] [MultiKeychain S] [Codec Hash] [Codec (SignatureSet S)] in
private theorem justified_of_quorum {session : SessionId} {hash : Hash}
    (hsession : sessionIdFromBlockNum (lastFinalized + 1) consensus.sessionPeriod = .ok session)
    (above : lastFinalized < consensus.tree.height hash)
    (below : consensus.tree.height hash ≤ lastBlockOfSession session consensus.sessionPeriod)
    (hquorum : Quorum consensus started session hash) : Justified consensus started hash := by
  have hwindow := (window_in_session hsession above below).1
  have hsmall := below.trans_lt (lastBlockOfSession_lt session consensus.sessionPeriod)
  refine ⟨session, (sessionIdFromBlockNum_ok.mp hsession).1, Nat.zero_lt_of_lt above, ?_, hquorum⟩
  rw [(sessionIdFromBlockNum_ok.mp hwindow).2, Nat.min_eq_left (by omega)]

private theorem sound_handled
    (h : Sound consensus finalized started ⟨⟨handler, .waiting keybox lastFinalized stopH⟩,
      aggregators⟩)
    (hnumber : ∀ header, handler.client.header notification.hash = some header →
      header.number = notification.number)
    (hunforged : ∀ authority j, ∀ e ∈ notification.justification.signature.present,
      SignatureScheme.verify authority (Codec.encode notification.hash) e.2.sgn = true →
      consensus.owner authority = some j → started j notification.hash)
    (hhandled : JustificationHandler.Handled handler notification keybox.authorities lastFinalized
      stopH now handler')
    (hfinalized : ∀ h, finalized h → finalized' h)
    (hcalls : ∀ call ∈ handler'.finalizeCalls, call.succeeded = true → finalized' call.hash) :
    Sound consensus finalized' started ⟨⟨handler', .top⟩, aggregators⟩ := by
  have hmono := h.mono hfinalized (fun _ _ hs => hs)
  cases hhandled with
  | unchanged => exact hmono.congr rfl rfl rfl (fun _ hcall _ => hcall) (by simp)
  | failed =>
    refine hmono.congr rfl rfl rfl ?_ (by simp)
    intro call hcall hsucceeded
    rcases List.mem_cons.mp hcall with rfl | hcall
    · cases hsucceeded
    · exact hcall
  | @finalized client complete above below finalizes =>
    obtain ⟨header, hknown, hstore, hhash, hnum⟩ := Client.finalizeBlock_eq_some finalizes
    have hheader := h.headers _ _ hknown
    rw [hnumber header hknown] at hnum
    obtain ⟨session, hsession, hstop, hauthorities⟩ := h.waiting _ _ _ rfl
    have hheight : consensus.tree.height notification.hash = notification.number := by
      rw [HeaderStore.height_eq hheader, hnumber header hknown]
    constructor
    · exact h.sessionPeriod
    · exact h.sessionAuthorities
    · dsimp only
      rw [hstore]
      exact h.headers
    · dsimp only
      rw [hhash, hnum, HeaderStore.number, hheader, Option.map_some, hnumber header hknown]
    · right
      dsimp only
      rw [hhash]
      exact hcalls _ List.mem_cons_self rfl
    · simp
    · intro call hcall hsucceeded
      rcases List.mem_cons.mp hcall with rfl | hcall
      · apply justified_of_quorum hsession
        · rw [hheight]
          exact above
        · rw [hheight]
          exact hstop ▸ below
        · exact quorum_of_complete (hauthorities ▸ complete) hunforged
      · exact h.justified call hcall hsucceeded
    · exact hmono.chains

private theorem sound_finality {node : Node Hash A S} {task : JustificationHandler.Task Hash A}
    {event : JustificationHandler.Event Hash A S} (h : Sound consensus finalized started node)
    (hstep : JustificationHandler.Step node.finality event task)
    (hassumed : NodeAssumed consensus started node (.finality event))
    (hfinalized : ∀ h, finalized h → finalized' h)
    (hcalls : ∀ call ∈ task.handler.finalizeCalls, call.succeeded = true → finalized' call.hash) :
    Sound consensus finalized' started { node with finality := task } := by
  have hmono := h.mono hfinalized (fun _ _ hs => hs)
  obtain ⟨finality, aggregators⟩ := node
  dsimp only at hstep
  cases hstep with
  | iterate run =>
    obtain rfl | ⟨session, keybox, hsession, hlookup, rfl⟩ :=
      JustificationHandler.iterate_cases run
    · exact hmono.congr rfl rfl rfl (fun _ hcall _ => hcall) (by simp)
    · refine ⟨h.sessionPeriod, h.sessionAuthorities, h.headers, h.number, hmono.finalizedHash, ?_,
        h.justified, hmono.chains⟩
      rintro _ _ _ ⟨⟩
      have hperiod := h.sessionPeriod
      dsimp only at hperiod
      rw [hperiod] at hsession ⊢
      exact ⟨session, hsession, rfl, h.sessionAuthorities session _ hlookup⟩
  | notified run =>
    obtain ⟨hnumber, hunforged⟩ := hassumed
    rw [JustificationHandler.requestJustification_finalizeCalls] at hcalls
    have hhandled := sound_handled h hnumber hunforged (JustificationHandler.handle_cases run)
      hfinalized hcalls
    exact hhandled.congr (by simp) (by simp) (by simp) (fun _ hcall _ => by simpa using hcall)
      (by simp)
  | timedOut =>
    exact hmono.congr (by simp) (by simp) (by simp) (fun _ hcall _ => by simpa using hcall) (by simp)
  | streamEnded => exact hmono.congr rfl rfl rfl (fun _ hcall _ => hcall) (by simp)
  | sessionAuthoritiesChanged =>
    exact ⟨h.sessionPeriod, hassumed, h.headers, h.number, hmono.finalizedHash, h.waiting,
      h.justified, hmono.chains⟩
  | headersImported =>
    exact ⟨h.sessionPeriod, h.sessionAuthorities, hassumed, h.number, hmono.finalizedHash,
      h.waiting, h.justified, hmono.chains⟩

end NodeSteps

section AggregatorSteps
variable [SignatureScheme A S] [Codec Hash] [DecidableEq Hash] {finalized : Hash → Prop}
  {started : ι → Hash → Prop} {node : Node Hash A S} {session : SessionId}

omit [SignatureScheme A S] [Codec Hash] [DecidableEq Hash] in
private theorem sound_aggregatorStarted (h : Sound consensus finalized started node)
    (hfits : session.val.toNat * consensus.sessionPeriod.val.toNat < 2 ^ 32)
    (hturn : InTurn consensus node (.aggregatorStarted session)) :
    Sound consensus finalized started { node with
      aggregators := node.aggregators.insert session
        (.start node.finality.handler.client
          (lastBlockOfSession session consensus.sessionPeriod)) } := by
  refine ⟨h.sessionPeriod, h.sessionAuthorities, h.headers, h.number, h.finalizedHash, h.waiting,
    h.justified, ?_⟩
  intro session' task hlookup
  rw [FiniteMap.lookup_insert] at hlookup
  split at hlookup
  · next hsession =>
    subst hsession
    cases hlookup
    refine ⟨rfl, _, ⟨h.finalizedHash, ?_⟩, RunAggregator.startedChain_start _ _⟩
    rw [HeaderStore.height, h.number, Option.getD_some]
    exact session_start_le hfits hturn
  · exact h.chains session' task hlookup

omit [SignatureScheme A S] [Codec Hash] in
private theorem sound_aggregator {task task' : RunAggregator Hash S}
    {event : RunAggregator.Event Hash S} (h : Sound consensus finalized started node)
    (hrunning : node.aggregators.lookup session = some task)
    (hstep : RunAggregator.Step node.finality.handler.client.toHeaderStore task event task') :
    Sound consensus finalized started
      { node with aggregators := node.aggregators.insert session task' } := by
  refine ⟨h.sessionPeriod, h.sessionAuthorities, h.headers, h.number, h.finalizedHash, h.waiting,
    h.justified, ?_⟩
  intro session' other hlookup
  rw [FiniteMap.lookup_insert] at hlookup
  split at hlookup
  · next hsession =>
    subst hsession
    cases hlookup
    obtain ⟨hlast, base, hbase, hchain⟩ := h.chains session' task hrunning
    exact ⟨(RunAggregator.step_frame hstep).1.trans hlast, base, hbase,
      RunAggregator.startedChain_step hchain h.headers hstep⟩
  · exact h.chains session' other hlookup

end AggregatorSteps
section WorldSteps
variable [SignatureScheme A S] [MultiKeychain S] [Codec Hash] [Codec (SignatureSet S)]
  [DecidableEq Hash] [DecidableEq ι] {nodes nodes' : ι → Node Hash A S} {node : Node Hash A S}
  {event : ι × Event Hash A S} {i : ι}

omit [DecidableEq ι] in
private theorem nodeStep_grows {event : Event Hash A S} {started : ι → Hash → Prop}
    {after : Node Hash A S} (hstep : NodeStep consensus node event after)
    (hassumed : NodeAssumed consensus started node event) :
    node.finality.handler.finalizeCalls ⊆ after.finality.handler.finalizeCalls ∧
      ∀ session task, node.aggregators.lookup session = some task →
        ∃ task', after.aggregators.lookup session = some task' ∧
          task.aggregator.startedRmc ⊆ task'.aggregator.startedRmc := by
  cases hstep with
  | finality step =>
    exact ⟨JustificationHandler.finalizeCalls_subset step,
      fun session task hlookup => ⟨task, hlookup, List.Subset.refl _⟩⟩
  | aggregatorStarted session =>
    refine ⟨List.Subset.refl _, ?_⟩
    intro session' task hlookup
    refine ⟨task, ?_, List.Subset.refl _⟩
    rw [FiniteMap.lookup_insert, if_neg]
    · exact hlookup
    · rintro rfl
      rw [hassumed] at hlookup
      cases hlookup
  | @aggregator session task _ task' running step =>
    refine ⟨List.Subset.refl _, ?_⟩
    intro session' other hlookup
    rw [FiniteMap.lookup_insert]
    split
    · next hsession =>
      subst hsession
      rw [running, Option.some.injEq] at hlookup
      subst hlookup
      exact ⟨task', rfl, (RunAggregator.step_frame step).2⟩
    · exact ⟨other, hlookup, List.Subset.refl _⟩

theorem sound_step (h : ∀ i, Sound consensus (Finalized nodes) (Started nodes) (nodes i))
    (hfits : Fits consensus event.2)
    (hstep : Guarded (Step consensus) (Assumed consensus) nodes event nodes') (j : ι) :
    Sound consensus (Finalized nodes') (Started nodes') (nodes' j) := by
  obtain ⟨⟨hassumed, hturn⟩, node, hnode, rfl⟩ := hstep
  obtain ⟨i, event⟩ := event
  obtain ⟨hcalls, hrmc⟩ := nodeStep_grows hnode hassumed
  dsimp only at hnode hcalls hrmc hfits hturn
  have hfinalized : ∀ h, Finalized nodes h → Finalized (Function.update nodes i node) h := by
    rintro _ ⟨k, call, hcall, hsucceeded, rfl⟩
    refine ⟨k, call, ?_, hsucceeded, rfl⟩
    by_cases hk : k = i
    · subst hk
      rw [Function.update_self]
      exact hcalls hcall
    · rw [Function.update_of_ne hk]
      exact hcall
  have hstarted : ∀ k h, Started nodes k h → Started (Function.update nodes i node) k h := by
    rintro k h ⟨session, task, hlookup, hmem⟩
    by_cases hk : k = i
    · subst hk
      obtain ⟨task', hlookup', hsubset⟩ := hrmc session task hlookup
      exact ⟨session, task', by rw [Function.update_self, hlookup'], hsubset hmem⟩
    · exact ⟨session, task, by rw [Function.update_of_ne hk, hlookup], hmem⟩
  by_cases hj : j = i
  · subst hj
    rw [Function.update_self]
    cases hnode with
    | finality step =>
      refine (sound_finality (h j) step hassumed hfinalized ?_).mono (fun _ hf => hf) hstarted
      intro call hcall hsucceeded
      exact ⟨j, call, by rw [Function.update_self]; exact hcall, hsucceeded, rfl⟩
    | aggregatorStarted =>
      exact (sound_aggregatorStarted (h j) hfits hturn).mono hfinalized hstarted
    | aggregator running step =>
      exact (sound_aggregator (h j) running step).mono hfinalized hstarted
  · rw [Function.update_of_ne hj]
    exact (h j).mono hfinalized hstarted

theorem sound_of_run {start : ι → Node Hash A S} {events : List (ι × Event Hash A S)}
    (hstart : ∀ i, AtGenesis consensus (start i))
    (hrun : Run (Guarded (Step consensus) (Assumed consensus)) start events nodes)
    (hfits : ∀ event ∈ events, Fits consensus event.2) (i : ι) :
    Sound consensus (Finalized nodes) (Started nodes) (nodes i) := by
  revert i
  apply hrun.history_invariant (fun events nodes => (∀ event ∈ events, Fits consensus event.2) →
    ∀ i, Sound consensus (Finalized nodes) (Started nodes) (nodes i))
  · exact fun _ i => sound_atGenesis (hstart i)
  · intro events nodes event nodes' _ ih hstep hfits
    rw [List.forall_mem_cons] at hfits
    exact sound_step (ih hfits.2) hfits.1 hstep
  · exact hfits

end WorldSteps
end Invariant

end AlephNode.Consensus
