import AlephNode.ReplayedLogs
import AlephNode.MultisignedHashes
import AlephNode.NotificationStreams
import AlephNode.StartedChains

/-!
# What an aggregator sends takes effect

The multicast completes only multisignatures of the authorities of its session, and the
aggregator of a session starts when the session before is over. Then what the aggregators of
a node send is what the handler of the same node waits for: a justification that the handler
takes finalizes its block, unless a block as high as that is finalized already.
-/
namespace AlephNode

variable {Hash A S Rest Aux E : Type}

namespace RunAggregator
variable [DecidableEq Hash] {tree client : HeaderStore Hash} {base : Hash}
  {justified : Hash → SignatureSet S → Prop} {task task' : RunAggregator Hash S}
  {event : Event Hash S}

/-- Only started hashes are queued, and the signatures kept for hashes are justified. -/
structure Multisigning (tree : HeaderStore Hash) (base : Hash)
    (justified : Hash → SignatureSet S → Prop) (task : RunAggregator Hash S) : Prop where
  chain : StartedChain tree base task
  queued : task.aggregator.hashQueue ⊆ task.aggregator.startedRmc
  signatures : ∀ hash multisignature,
    task.aggregator.signatures.lookup hash = some multisignature → justified hash multisignature

theorem multisigning_start (client : Client Hash) (lastBlockInSession : ℕ) :
    Multisigning tree client.finalizedHash justified (start client lastBlockInSession) where
  chain := startedChain_start client lastBlockInSession
  queued := List.Subset.refl _
  signatures hash multisignature h := by cases h

/-- The loop over headers queues what it starts, and leaves the signatures alone. -/
theorem processHeaders_queued (task : RunAggregator Hash S) (headers : List (Header Hash))
    (h : task.aggregator.hashQueue ⊆ task.aggregator.startedRmc) :
    (task.processHeaders headers).aggregator.hashQueue ⊆
        (task.processHeaders headers).aggregator.startedRmc ∧
      (task.processHeaders headers).aggregator.signatures = task.aggregator.signatures := by
  induction headers generalizing task with
  | nil => exact ⟨h, rfl⟩
  | cons header headers ih =>
    have hstarted : (task.aggregator.startAggregation header.hash).hashQueue ⊆
          (task.aggregator.startAggregation header.hash).startedRmc ∧
        (task.aggregator.startAggregation header.hash).signatures =
          task.aggregator.signatures := by
      unfold BlockSignatureAggregator.startAggregation
      split_ifs
      · exact ⟨h, rfl⟩
      · refine ⟨?_, rfl⟩
        intro hash hmem
        rcases List.mem_append.mp hmem with hmem | hmem
        · exact List.mem_append_left _ (h hmem)
        · exact List.mem_append_right _ hmem
    unfold processHeaders
    dsimp only
    split_ifs
    · exact hstarted
    · have hrest := ih { task with
        aggregator := task.aggregator.startAggregation header.hash
        lastFinalized := header.hash } hstarted.1
      exact ⟨hrest.1, hrest.2.trans hstarted.2⟩
    · exact ⟨h, rfl⟩
    · exact ih task h

theorem multisigning_step (h : Multisigning tree base justified task) (hsub : client.Subset tree)
    (hjustified : ∀ hash multisignature, event = .rmcCompleted hash multisignature →
      justified hash multisignature)
    (hstep : Step client task event task') : Multisigning tree base justified task' := by
  have hchain := startedChain_step h.chain hsub hstep
  cases hstep with
  | @data newBlockData =>
    obtain ⟨hqueued, hsignatures⟩ := processHeaders_queued task
      (ChainExtension.chainExtensionStep client task.lastFinalized newBlockData) h.queued
    refine ⟨hchain, hqueued, ?_⟩
    intro hash multisignature hlookup
    simp only [processData, hsignatures] at hlookup
    exact h.signatures hash multisignature hlookup
  | @multisigned _ aggregator hash multisignature _ poll run =>
    obtain ⟨rest, hqueue, hlookup, rfl⟩ :=
      BlockSignatureAggregator.Aggregation.nextMultisignedHash_returned poll
    unfold sendJustification at run
    split at run
    · cases run
    · cases run
      refine ⟨hchain, ?_, ?_⟩
      · intro hash' hmem
        exact h.queued (hqueue ▸ List.mem_cons_of_mem _ hmem)
      · intro hash' multisignature' hlookup'
        rw [FiniteMap.lookup_erase] at hlookup'
        split at hlookup'
        · cases hlookup'
        · exact h.signatures _ _ hlookup'
  | rmcCompleted hash multisignature =>
    refine ⟨hchain, h.queued, ?_⟩
    intro hash' multisignature' hlookup
    simp only [BlockSignatureAggregator.multisigned, FiniteMap.lookup_insert] at hlookup
    split at hlookup
    · next hsame =>
      cases hlookup
      exact hsame ▸ hjustified hash multisignature rfl
    · exact h.signatures _ _ hlookup
  | batchIgnored => exact h
  | _ => exact ⟨hchain, h.queued, h.signatures⟩

/-- A returned hash was started, and its multisignature is justified. -/
theorem Multisigning.returned {hash : Hash} {multisignature : SignatureSet S}
    (h : Multisigning tree base justified task)
    (hstep : Step client task (.multisigned hash multisignature) task') :
    hash ∈ task.aggregator.startedRmc ∧ justified hash multisignature := by
  cases hstep with
  | multisigned _ poll =>
    obtain ⟨rest, hqueue, hlookup, _⟩ :=
      BlockSignatureAggregator.Aggregation.nextMultisignedHash_returned poll
    exact ⟨h.queued (hqueue ▸ List.mem_cons_self), h.signatures _ _ hlookup⟩

end RunAggregator

namespace JustificationHandler
variable [SignatureScheme A S] [MultiKeychain S] [Codec Hash] [Codec (SignatureSet S)]
  {authoritiesOf : SessionId → List A} {task task' : Task Hash A} {event : Event Hash A S}

/-- A task that waits does so with the authorities of the session of the next block. -/
structure Attentive (authoritiesOf : SessionId → List A) (task : Task Hash A) : Prop where
  lists : Lists task.handler.sessionAuthorities authoritiesOf
  finalized : task.handler.client.number task.handler.client.finalizedHash =
    some task.handler.client.finalizedNumber
  waiting : ∀ keybox lastFinalized stopH, task.loop = .waiting keybox lastFinalized stopH →
    lastFinalized = task.handler.client.finalizedNumber ∧
    ∃ session, sessionIdFromBlockNum (lastFinalized + 1) task.handler.chainCadence.sessionPeriod =
        .ok session ∧
      stopH = lastBlockOfSession session task.handler.chainCadence.sessionPeriod ∧
      keybox.authorities = authoritiesOf session

structure Later (handler handler' : JustificationHandler Hash A) : Prop where
  chainCadence : handler'.chainCadence = handler.chainCadence
  headers : handler.client.toHeaderStore.Subset handler'.client.toHeaderStore
  finalized : handler.client.finalizedNumber ≤ handler'.client.finalizedNumber

omit [SignatureScheme A S] [MultiKeychain S] [Codec Hash] [Codec (SignatureSet S)] in
theorem Later.refl (handler : JustificationHandler Hash A) : Later handler handler :=
  ⟨rfl, HeaderStore.Subset.refl _, Nat.le_refl _⟩

omit [SignatureScheme A S] [MultiKeychain S] [Codec Hash] [Codec (SignatureSet S)] in
theorem number_mono {store larger : HeaderStore Hash} {hash : Hash} {number : ℕ}
    (hsubset : store.Subset larger) (h : store.number hash = some number) :
    larger.number hash = some number := by
  obtain ⟨header, hheader, rfl⟩ := Option.map_eq_some_iff.mp h
  rw [HeaderStore.number, hsubset _ _ hheader, Option.map_some]

omit [Codec Hash] in
private theorem Attentive.requested {handler : JustificationHandler Hash A} {loop : Loop A}
    (h : Attentive authoritiesOf ⟨handler, loop⟩) (currentTime : ℕ)
    (headerAt : Option (Header Hash)) :
    Attentive authoritiesOf ⟨handler.requestJustification currentTime headerAt, .top⟩ := by
  obtain ⟨lastRequestTime, requested, hrequest⟩ :=
    requestJustification_frame handler currentTime headerAt
  rw [hrequest]
  exact ⟨h.lists, h.finalized, by simp⟩

theorem attentive_step (h : Attentive authoritiesOf task) (hmatch : NumbersMatch task event)
    (hlists : ∀ sessionAuthorities, event = .sessionAuthoritiesChanged sessionAuthorities →
      Lists sessionAuthorities authoritiesOf)
    (hstep : Step task event task') :
    Attentive authoritiesOf task' ∧ Later task.handler task'.handler := by
  cases hstep with
  | @iterate handler _ run =>
    rcases iterate_cases run with rfl | ⟨session, keybox, hsession, hlookup, rfl⟩
    · exact ⟨h, .refl _⟩
    · refine ⟨⟨h.lists, h.finalized, ?_⟩, .refl _⟩
      rintro keybox' lastFinalized stopH ⟨⟩
      exact ⟨rfl, session, hsession, rfl, h.lists session keybox.authorities hlookup⟩
  | @notified handler handler' keybox lastFinalized stopH notification now accepted currentTime
      headerAt run =>
    have hlast := (h.waiting _ _ _ rfl).1
    have hhandled : Attentive authoritiesOf ⟨handler', .top⟩ ∧
        Later handler handler' := by
      cases handle_cases run with
      | unchanged => exact ⟨⟨h.lists, h.finalized, by simp⟩, .refl _⟩
      | failed =>
        exact ⟨⟨h.lists, h.finalized, by simp⟩, rfl, HeaderStore.Subset.refl _, Nat.le_refl _⟩
      | @finalized client complete above below finalizes =>
        obtain ⟨header, hheader, hheaders, hhash, hnumber⟩ := Client.finalizeBlock_eq_some finalizes
        refine ⟨⟨h.lists, ?_, by simp⟩, rfl, ?_, ?_⟩
        · dsimp only
          rw [hheaders, hhash, hnumber, HeaderStore.number, hheader, Option.map_some]
        · dsimp only
          rw [hheaders]
          exact HeaderStore.Subset.refl _
        · have hmatched := hmatch header hheader
          dsimp only at hlast ⊢
          omega
    refine ⟨hhandled.1.requested currentTime headerAt, ?_⟩
    obtain ⟨hcadence, hheaders, hfinalized⟩ := hhandled.2
    exact ⟨by simpa using hcadence, by simpa using hheaders, by simpa using hfinalized⟩
  | timedOut =>
    refine ⟨h.requested _ _, ?_⟩
    exact ⟨by simp, by simpa using HeaderStore.Subset.refl _, by simp⟩
  | streamEnded => exact ⟨⟨h.lists, h.finalized, by simp⟩, .refl _⟩
  | sessionAuthoritiesChanged =>
    exact ⟨⟨hlists _ rfl, h.finalized, h.waiting⟩, rfl, HeaderStore.Subset.refl _, Nat.le_refl _⟩
  | headersImported grows =>
    exact ⟨⟨h.lists, number_mono grows h.finalized, h.waiting⟩, rfl, grows, Nat.le_refl _⟩

/-- A justification that an aggregator of the same node has sent. Its session began after the
block with the number `base`, which is finalized. -/
structure Own (authoritiesOf : SessionId → List A) (handler : JustificationHandler Hash A)
    (notification : JustificationNotification Hash S) : Prop where
  known : handler.client.number notification.hash = some notification.number
  aggregated : ∃ session base,
    Complete (authoritiesOf session) notification.hash notification.justification ∧
      session.val.toNat * handler.chainCadence.sessionPeriod.val.toNat ≤ base + 1 ∧
      base ≤ handler.client.finalizedNumber ∧ base < notification.number ∧
      notification.number ≤ lastBlockOfSession session handler.chainCadence.sessionPeriod

section Own
variable {handler handler' : JustificationHandler Hash A} {keybox : KeyBox A}
  {notification : JustificationNotification Hash S} {session : SessionId}
  {lastFinalized stopH : ℕ}

omit [Codec (SignatureSet S)] in
theorem Own.later (h : Own authoritiesOf handler notification) (hlater : Later handler handler') :
    Own authoritiesOf handler' notification := by
  obtain ⟨hknown, session, base, hcomplete, hbegun, hfinalized, habove, hbelow⟩ := h
  refine ⟨number_mono hlater.headers hknown, session, base, hcomplete, ?_,
    hfinalized.trans hlater.finalized, habove, ?_⟩
  · rw [hlater.chainCadence]
    exact hbegun
  · rw [hlater.chainCadence]
    exact hbelow

omit [Codec (SignatureSet S)] in
/-- As long as no block as high as that is finalized, the session of the next block is the one
that the justification is for. -/
theorem Own.in_session (h : Own authoritiesOf handler notification)
    (hsession : sessionIdFromBlockNum (handler.client.finalizedNumber + 1)
      handler.chainCadence.sessionPeriod = .ok session)
    (habove : handler.client.finalizedNumber < notification.number) :
    Complete (authoritiesOf session) notification.hash notification.justification ∧
      notification.number ≤ lastBlockOfSession session handler.chainCadence.sessionPeriod := by
  obtain ⟨_, session', base, hcomplete, hbegun, hfinalized, hbase, hbelow⟩ := h
  obtain ⟨hperiod, hdiv⟩ := sessionIdFromBlockNum_ok.mp hsession
  obtain ⟨hlt, hquotient, _⟩ := number_in_session hperiod hbegun hbase hbelow
  have hsame : session = session' := by
    apply session_ext
    rw [hdiv, Nat.min_eq_left (by omega)]
    apply Nat.le_antisymm
    · rw [← hquotient]
      exact Nat.div_le_div_right habove
    · exact (Nat.le_div_iff_mul_le hperiod).mpr (hbegun.trans (by omega))
  rw [hsame]
  exact ⟨hcomplete, hbelow⟩

/-- A task that waits finalizes the block if the client does, and at least tries; unless a
block as high as that is finalized already. -/
theorem Own.takes_effect {now : ℕ} {accepted : Bool}
    (h : Own authoritiesOf handler notification)
    (hattentive : Attentive authoritiesOf ⟨handler, .waiting keybox lastFinalized stopH⟩) :
    (handler.client.finalizedNumber < notification.number → ∃ handler',
      handler.handleJustificationNotification notification keybox lastFinalized stopH now accepted =
        .ok handler' ∧
      handler'.finalizeCalls = ⟨notification.hash, notification.number,
        (alephEngineId, Codec.encode notification.justification), accepted⟩ ::
          handler.finalizeCalls ∧
      (accepted = true → handler'.client.finalizedHash = notification.hash ∧
        handler'.client.finalizedNumber = notification.number)) ∧
    (notification.number ≤ handler.client.finalizedNumber → ∀ handler',
      handler.handleJustificationNotification notification keybox lastFinalized stopH now accepted =
        .ok handler' → handler' = handler) := by
  obtain ⟨hlast, session, hsession, hstop, hauthorities⟩ := hattentive.waiting _ _ _ rfl
  dsimp only at hlast hsession hstop
  subst hlast hstop
  constructor
  · intro habove
    obtain ⟨hcomplete, hbelow⟩ := h.in_session hsession habove
    obtain ⟨header, hheader, hnumber⟩ := Option.map_eq_some_iff.mp h.known
    have hverify : notification.justification.verify notification.hash keybox = .ok true :=
      AlephJustification.verify_eq_true.mpr (hauthorities ▸ hcomplete)
    simp only [handleJustificationNotification, hverify, ok_bind, if_true, gt_iff_lt,
      if_pos (And.intro habove hbelow), Client.finalizeBlock, hheader]
    cases accepted with
    | true => exact ⟨_, rfl, rfl, fun _ => ⟨rfl, hnumber⟩⟩
    | false => exact ⟨_, rfl, rfl, by simp⟩
  · intro hbelow handler' hhandled
    exact (handle_cases hhandled).unchanged_of_outside
      (fun habove => absurd habove (Nat.not_lt.mpr hbelow))

end Own

end JustificationHandler

namespace FinalityNode
variable [SignatureScheme A S] [MultiKeychain S] [Codec Hash] [Codec (SignatureSet S)]
  [DecidableEq Hash] {tree : HeaderStore Hash} {authoritiesOf : SessionId → List A}
  {start node node' : FinalityNode Hash A S Rest Aux E}
  {events : List (Event Hash A S Rest Aux E)} {event : Event Hash A S Rest Aux E}

open JustificationHandler (Attentive Later Own Lists)

/-- Aggregators are started for sessions that begin with the next block or have begun, the
multicast completes multisignatures of their authorities, and the session map lists them. -/
def Aggregating (authoritiesOf : SessionId → List A) (node : FinalityNode Hash A S Rest Aux E) :
    Event Hash A S Rest Aux E → Prop
  | .aggregatorStarted session =>
    session.val.toNat * node.task.handler.chainCadence.sessionPeriod.val.toNat ≤
      node.client.finalizedNumber + 1
  | .aggregator session (.rmcCompleted hash multisignature) =>
    Complete (authoritiesOf session) hash ⟨multisignature⟩
  | .handler (.sessionAuthoritiesChanged sessionAuthorities) => Lists sessionAuthorities authoritiesOf
  | _ => True

structure Aggregates (tree : HeaderStore Hash) (authoritiesOf : SessionId → List A)
    (handler : JustificationHandler Hash A) (session : SessionId) (task : RunAggregator Hash S) :
    Prop where
  last : task.lastBlockInSession = lastBlockOfSession session handler.chainCadence.sessionPeriod
  multisigning : ∃ base number, tree.number base = some number ∧
    session.val.toNat * handler.chainCadence.sessionPeriod.val.toNat ≤ number + 1 ∧
    number ≤ handler.client.finalizedNumber ∧
    task.Multisigning tree base (fun hash multisignature =>
      Complete (authoritiesOf session) hash ⟨multisignature⟩)

structure Effective (tree : HeaderStore Hash) (authoritiesOf : SessionId → List A)
    (node : FinalityNode Hash A S Rest Aux E) : Prop where
  attentive : Attentive authoritiesOf node.task
  aggregators : ∀ session task, node.aggregators.lookup session = some task →
    Aggregates tree authoritiesOf node.task.handler session task
  sent : ∀ n ∈ node.authorityJustificationTx.messages, Own authoritiesOf node.task.handler n

section Steps

omit [Codec (SignatureSet S)] in
theorem Aggregates.later {handler handler' : JustificationHandler Hash A} {session : SessionId}
    {task : RunAggregator Hash S} (h : Aggregates tree authoritiesOf handler session task)
    (hlater : Later handler handler') : Aggregates tree authoritiesOf handler' session task := by
  obtain ⟨hlast, base, number, hnumber, hbegun, hfinalized, hmultisigning⟩ := h
  refine ⟨?_, base, number, hnumber, ?_, hfinalized.trans hlater.finalized, hmultisigning⟩
  · rw [hlater.chainCadence, hlast]
  · rw [hlater.chainCadence]
    exact hbegun

omit [Codec (SignatureSet S)] in
theorem Aggregates.own {handler : JustificationHandler Hash A} {session : SessionId}
    {task task' : RunAggregator Hash S} {notification : JustificationNotification Hash S}
    (h : Aggregates tree authoritiesOf handler session task)
    (hsub : handler.client.toHeaderStore.Subset tree)
    (hnumber : handler.client.number notification.hash = some notification.number)
    (hstep : RunAggregator.Step handler.client.toHeaderStore task
      (.multisigned notification.hash notification.justification.signature) task') :
    Own authoritiesOf handler notification := by
  obtain ⟨hlast, base, number, hbase, hbegun, hfinalized, hmultisigning⟩ := h
  obtain ⟨hstarted, hcomplete⟩ := hmultisigning.returned hstep
  have hheight : tree.height notification.hash = notification.number := by
    rw [HeaderStore.height, JustificationHandler.number_mono hsub hnumber, Option.getD_some]
  have hbaseHeight : tree.height base = number := by rw [HeaderStore.height, hbase, Option.getD_some]
  have habove := (hmultisigning.chain.ancestor_base hstarted).2
  have hbound := hmultisigning.chain.bounded _ hstarted
  rw [hheight, hbaseHeight] at habove
  rw [hheight, hlast] at hbound
  exact ⟨hnumber, session, number, hcomplete, hbegun, hfinalized, habove, hbound⟩

omit [Codec (SignatureSet S)] in
private theorem Effective.kept (h : Effective tree authoritiesOf node)
    (hattentive : Attentive authoritiesOf node'.task)
    (hlater : Later node.task.handler node'.task.handler)
    (haggregators : node'.aggregators = node.aggregators)
    (hsent : node'.authorityJustificationTx.messages ⊆ node.authorityJustificationTx.messages) :
    Effective tree authoritiesOf node' := by
  refine ⟨hattentive, ?_, ?_⟩
  · intro session task hlookup
    rw [haggregators] at hlookup
    exact (h.aggregators session task hlookup).later hlater
  · intro n hn
    exact (h.sent n (hsent hn)).later hlater

omit [Codec (SignatureSet S)] in
private theorem effective_started (h : Effective tree authoritiesOf node)
    (hsub : node.client.toHeaderStore.Subset tree) {session : SessionId}
    (hbegun : session.val.toNat * node.task.handler.chainCadence.sessionPeriod.val.toNat ≤
      node.client.finalizedNumber + 1) :
    Effective tree authoritiesOf { node with
      aggregators := node.aggregators.insert session (.start node.client
        (lastBlockOfSession session node.task.handler.chainCadence.sessionPeriod)) } := by
  refine ⟨h.attentive, ?_, h.sent⟩
  intro session' task hlookup
  dsimp only at hlookup
  rw [FiniteMap.lookup_insert] at hlookup
  split at hlookup
  · next hsame =>
    cases hlookup
    subst hsame
    exact ⟨rfl, node.client.finalizedHash, node.client.finalizedNumber,
      JustificationHandler.number_mono hsub h.attentive.finalized, hbegun, Nat.le_refl _,
      RunAggregator.multisigning_start _ _⟩
  · exact h.aggregators session' task hlookup

omit [Codec (SignatureSet S)] in
private theorem effective_aggregator (h : Effective tree authoritiesOf node)
    (hsub : node.client.toHeaderStore.Subset tree) {session : SessionId}
    {task task' : RunAggregator Hash S} {event : RunAggregator.Event Hash S}
    (hrunning : node.aggregators.lookup session = some task)
    (hcomplete : ∀ hash multisignature, event = .rmcCompleted hash multisignature →
      Complete (authoritiesOf session) hash ⟨multisignature⟩)
    (hstep : RunAggregator.Step node.client.toHeaderStore task event task') :
    Effective tree authoritiesOf (node.aggregatorMoved session task task') := by
  have haggregates := h.aggregators session task hrunning
  refine ⟨h.attentive, ?_, ?_⟩
  · intro session' other hlookup
    simp only [aggregatorMoved, FiniteMap.lookup_insert] at hlookup
    split at hlookup
    · next hsame =>
      cases hlookup
      subst hsame
      obtain ⟨hlast, base, number, hnumber, hbegun, hfinalized, hmultisigning⟩ := haggregates
      exact ⟨(RunAggregator.step_frame hstep).1.trans hlast, base, number, hnumber, hbegun,
        hfinalized, RunAggregator.multisigning_step hmultisigning hsub hcomplete hstep⟩
    · exact h.aggregators session' other hlookup
  · intro n hn
    obtain ⟨sent, hsent, hnumbers⟩ := RunAggregator.justificationTx_step hstep
    obtain ⟨added, hadded, hsubset⟩ := node.authorityJustificationTx.sendAll_messages
      (task'.justificationTx.messages.drop task.justificationTx.messages.length)
    rw [hsent, List.drop_left] at hsubset
    simp only [aggregatorMoved, hadded, List.mem_append] at hn
    rcases hn with hn | hn
    · exact h.sent n hn
    · obtain ⟨rfl, hnumber⟩ := hnumbers n (hsubset hn)
      exact haggregates.own hsub hnumber hstep

omit [DecidableEq Hash] [SignatureScheme A S] [MultiKeychain S] [Codec Hash]
  [Codec (SignatureSet S)] in
/-- The handler does not put anything on the stream of the aggregators. -/
theorem authorityStream_subset {streams streams' : NotificationStreams Hash S}
    {event : JustificationHandler.Event Hash A S}
    (h : JustificationHandler.Takes streams event streams') :
    streams'.authorityStream ⊆ streams.authorityStream := by
  cases event with
  | notified =>
    cases h with
    | fromImport => exact List.Subset.refl _
    | fromAuthority => exact List.subset_cons_self _ _
  | streamEnded => exact h.2 ▸ List.Subset.refl _
  | _ =>
    have hsame : streams' = streams := h
    exact hsame ▸ List.Subset.refl _

theorem effective_step (h : Effective tree authoritiesOf node)
    (haccounted : Accounted tree start events node)
    (hassumed : Assumed tree node event) (haggregating : Aggregating authoritiesOf node event)
    (hstep : Step node event node') : Effective tree authoritiesOf node' := by
  have hsub := haccounted.headers
  cases hstep with
  | importBegun => exact h.kept h.attentive (.refl _) rfl (List.Subset.refl _)
  | @importApplied before block justifications after importResult headers bestNumber pending grows =>
    have hgrown : JustificationHandler.Step node.task
        (.headersImported headers bestNumber : JustificationHandler.Event Hash A S)
        ⟨{ node.task.handler with client := { node.task.handler.client with
          toHeaderStore := headers, bestNumber := bestNumber } }, node.task.loop⟩ :=
      .headersImported grows
    have hmatch : JustificationHandler.NumbersMatch node.task
        (.headersImported headers bestNumber : JustificationHandler.Event Hash A S) := trivial
    obtain ⟨hattentive, hlater⟩ :=
      JustificationHandler.attentive_step h.attentive hmatch (fun _ hevent => by cases hevent) hgrown
    exact h.kept hattentive hlater rfl (List.Subset.refl _)
  | importFinished => exact h.kept h.attentive (.refl _) rfl (List.Subset.refl _)
  | justificationImported => exact h.kept h.attentive (.refl _) rfl (List.Subset.refl _)
  | justificationRefused => exact h
  | aggregatorStarted session => exact effective_started h hsub haggregating
  | @aggregator session task aggregatorEvent task' running step =>
    refine effective_aggregator h hsub running ?_ step
    rintro hash multisignature rfl
    exact haggregating
  | @handler handlerEvent task streams step takes own =>
    have hmatch : JustificationHandler.NumbersMatch node.task handlerEvent := by
      cases handlerEvent with
      | notified notification now accepted currentTime headerAt =>
        intro header hheader
        have hqueued := haccounted.queued _ (NotificationStreams.Next.mem_remaining takes)
        exact hqueued.2 header (hsub _ _ hheader)
      | _ => trivial
    have hlists : ∀ sessionAuthorities, handlerEvent = .sessionAuthoritiesChanged sessionAuthorities →
        Lists sessionAuthorities authoritiesOf := by
      rintro sessionAuthorities rfl
      exact haggregating
    obtain ⟨hattentive, hlater⟩ :=
      JustificationHandler.attentive_step h.attentive hmatch hlists step
    exact h.kept hattentive hlater rfl (authorityStream_subset takes)

/-- The surroundings of the node are as assumed, and those of its aggregators. -/
def Expected (tree : HeaderStore Hash) (authoritiesOf : SessionId → List A)
    (node : FinalityNode Hash A S Rest Aux E) (event : Event Hash A S Rest Aux E) : Prop :=
  Assumed tree node event ∧ Aggregating authoritiesOf node event

theorem effective_of_run (hstart : AtStart tree start)
    (hattentive : Attentive authoritiesOf start.task) (hnone : start.aggregators = ∅)
    (hrun : Run (Guarded Step (Expected tree authoritiesOf)) start events node) :
    Accounted tree start events node ∧ Effective tree authoritiesOf node := by
  apply hrun.history_invariant
    (fun events node => Accounted tree start events node ∧ Effective tree authoritiesOf node)
  · refine ⟨accounted_initial hstart, hattentive, ?_, ?_⟩
    · intro session task hlookup
      rw [hnone] at hlookup
      cases hlookup
    · intro n hn
      have hempty : start.streams.authorityStream = [] :=
        (List.append_eq_nil_iff.mp hstart.streams).2
      have hmessages : start.authorityJustificationTx.messages = [] := hempty
      rw [hmessages] at hn
      cases hn
  · intro events node event node' _ h hstep
    obtain ⟨⟨hassumed, haggregating⟩, hstep⟩ := hstep
    exact ⟨accounted_step h.1 ⟨hassumed, hstep⟩,
      effective_step h.2 h.1 hassumed haggregating hstep⟩

/-- Whatever else is imported and finalized in between: when the handler takes what one of the
aggregators of the node has sent for a block above the finalized one, it does not panic and
calls `finalize_block` for it, which finalizes the block if the client accepts it. When a block
as high as that is finalized already, the call may panic, but if it returns nothing changes. -/
theorem own_justifications_take_effect (hstart : AtStart tree start)
    (hattentive : Attentive authoritiesOf start.task) (hnone : start.aggregators = ∅)
    (hrun : Run (Guarded Step (Expected tree authoritiesOf)) start events node)
    {keybox : KeyBox A} {lastFinalized stopH now : ℕ} {accepted : Bool}
    (hwaiting : node.task.loop = .waiting keybox lastFinalized stopH)
    {notification : JustificationNotification Hash S}
    (hsent : notification ∈ node.authorityJustificationTx.messages) :
    (node.client.finalizedNumber < notification.number → ∃ handler',
      node.task.handler.handleJustificationNotification notification keybox lastFinalized stopH
        now accepted = .ok handler' ∧
      handler'.finalizeCalls = ⟨notification.hash, notification.number,
        (alephEngineId, Codec.encode notification.justification), accepted⟩ ::
          node.task.handler.finalizeCalls ∧
      (accepted = true → handler'.client.finalizedHash = notification.hash ∧
        handler'.client.finalizedNumber = notification.number)) ∧
    (notification.number ≤ node.client.finalizedNumber → ∀ handler',
      node.task.handler.handleJustificationNotification notification keybox lastFinalized stopH
        now accepted = .ok handler' → handler' = node.task.handler) := by
  obtain ⟨_, heffective⟩ := effective_of_run hstart hattentive hnone hrun
  have hloop : node.task = ⟨node.task.handler, .waiting keybox lastFinalized stopH⟩ := by
    rw [← hwaiting]
  exact (heffective.sent _ hsent).takes_effect (hloop ▸ heffective.attentive)

end Steps

section Example
attribute [local instance] nodeIndexCodec

private def soleAuthority : SessionId → List PlainKey := fun _ => [⟨7⟩]

private structure SignerReaches (node : FinalityNode ℕ PlainKey PlainSignature Unit Unit Unit)
    (task : RunAggregator ℕ PlainSignature) : Prop where
  run : ∃ events, Run (Guarded Step (Expected (Client.ofLine 3 0).toHeaderStore soleAuthority))
    follower events node
  running : node.aggregators.lookup ⟨0⟩ = some task
  handler : node.task = follower.task
  sent : node.authorityJustificationTx = ⟨task.justificationTx.messages, true⟩

private theorem SignerReaches.step {node : FinalityNode ℕ PlainKey PlainSignature Unit Unit Unit}
    {task task' : RunAggregator ℕ PlainSignature} {event : RunAggregator.Event ℕ PlainSignature}
    (h : SignerReaches node task)
    (hstep : RunAggregator.Step (Client.ofLine 3 0).toHeaderStore task event task')
    (haggregating : ∀ hash multisignature, event = .rmcCompleted hash multisignature →
      Complete [(⟨7⟩ : PlainKey)] hash ⟨multisignature⟩) :
    SignerReaches (node.aggregatorMoved ⟨0⟩ task task') task' := by
  obtain ⟨⟨events, hrun⟩, hrunning, hhandler, hsent⟩ := h
  have hclient : node.client = Client.ofLine 3 0 := by
    rw [client, hhandler]
    rfl
  have hmoved : Step node (.aggregator ⟨0⟩ event) (node.aggregatorMoved ⟨0⟩ task task') :=
    .aggregator hrunning (by rw [hclient]; exact hstep)
  have hexpected : Expected (Client.ofLine 3 0).toHeaderStore soleAuthority node
      (.aggregator ⟨0⟩ event) := by
    refine ⟨trivial, ?_⟩
    cases event with
    | rmcCompleted hash multisignature => exact haggregating hash multisignature rfl
    | _ => trivial
  refine ⟨⟨_, hrun.tail ⟨hexpected, hmoved⟩⟩, Finmap.lookup_insert _, hhandler, ?_⟩
  obtain ⟨sent, hmessages, _⟩ := RunAggregator.justificationTx_step hstep
  simp only [aggregatorMoved, hsent, hmessages, List.drop_left, Channel.sendAll, if_true]

private def signerStarted : RunAggregator ℕ PlainSignature := .start (Client.ofLine 3 0) 9

private theorem signer_sends : ∃ node, ∃ task : RunAggregator ℕ PlainSignature,
    SignerReaches node task ∧
      task.justificationTx.messages = [JustificationHandler.singleNotification 1] := by
  have hstarted : SignerReaches
      { follower with aggregators := follower.aggregators.insert ⟨0⟩ signerStarted } signerStarted := by
    have hstep : Step follower (.aggregatorStarted ⟨0⟩)
        { follower with aggregators := follower.aggregators.insert ⟨0⟩ signerStarted } :=
      .aggregatorStarted ⟨0⟩
    have hexpected : Expected (Client.ofLine 3 0).toHeaderStore soleAuthority follower
        (.aggregatorStarted ⟨0⟩) := ⟨trivial, Nat.zero_le _⟩
    exact ⟨⟨_, .tail .refl ⟨hexpected, hstep⟩⟩, Finmap.lookup_insert _, rfl, rfl⟩
  have hbatch := hstarted.step (.batch [⟨2, 1⟩] rfl rfl) nofun
  have hdata := hbatch.step (.data rfl) nofun
  have hdone := hdata.step (.batchDone rfl) nofun
  have hcomplete : Complete [(⟨7⟩ : PlainKey)] (2 : ℕ) (JustificationHandler.singleJustification 2) := by
    have hverify : (JustificationHandler.singleJustification 2).verify (2 : ℕ)
        (⟨⟨0⟩, ⟨7⟩, [⟨7⟩]⟩ : KeyBox PlainKey) = .ok true := rfl
    exact AlephJustification.verify_eq_true.mp hverify
  have hsigned := hdone.step (.rmcCompleted 2 (JustificationHandler.singleJustification 2).signature
    rfl rfl) (by rintro hash multisignature ⟨⟩; exact hcomplete)
  have hsent := hsigned.step (.multisigned rfl rfl rfl) nofun
  exact ⟨_, _, hsent, rfl⟩

theorem own_justifications_take_effect_signer :
    ∃ node : FinalityNode ℕ PlainKey PlainSignature Unit Unit Unit, ∃ keybox handler',
      node.task.loop = .waiting keybox 0 9 ∧ JustificationHandler.singleNotification 1 ∈
        node.authorityJustificationTx.messages ∧
      node.task.handler.handleJustificationNotification (JustificationHandler.singleNotification 1)
        keybox 0 9 5 true = .ok handler' ∧
      handler'.client.finalizedNumber = 1 := by
  obtain ⟨node, task, ⟨⟨events, hrun⟩, _, hhandler, hsent⟩, hmessages⟩ := signer_sends
  let keybox : KeyBox PlainKey := ⟨⟨0⟩, ⟨7⟩, [⟨7⟩]⟩
  let waiting : JustificationHandler.Task ℕ PlainKey := ⟨follower.task.handler, .waiting keybox 0 9⟩
  have hiterate : JustificationHandler.Step node.task
      (.iterate : JustificationHandler.Event ℕ PlainKey PlainSignature) waiting := by
    rw [hhandler]
    exact .iterate rfl
  have hstep : Step node (.handler .iterate) (node.handlerMoved waiting node.streams) :=
    .handler hiterate rfl nofun
  have hexpected : Expected (Client.ofLine 3 0).toHeaderStore soleAuthority node
      (.handler .iterate) := ⟨trivial, trivial⟩
  have hattentive : Attentive soleAuthority follower.task := by
    refine ⟨?_, rfl, nofun⟩
    intro session authorities hlookup
    exact JustificationHandler.singleAuthority_lookup ⟨10⟩ hlookup
  have hstart : AtStart (Client.ofLine 3 0).toHeaderStore follower :=
    ⟨rfl, rfl, HeaderStore.Subset.refl _, rfl, rfl⟩
  have hmem : JustificationHandler.singleNotification 1 ∈
      (node.handlerMoved waiting node.streams).authorityJustificationTx.messages := by
    simp [handlerMoved, streams, hsent, hmessages]
  obtain ⟨handler', hhandled, _, heffect⟩ := (own_justifications_take_effect hstart hattentive rfl
    (hrun.tail ⟨hexpected, hstep⟩) rfl hmem).1 Nat.zero_lt_one
  exact ⟨_, keybox, handler', rfl, hmem, hhandled, (heffect rfl).2⟩

end Example
end FinalityNode
end AlephNode
