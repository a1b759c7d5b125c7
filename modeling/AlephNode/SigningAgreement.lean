import AlephNode.AggregatedJustifications
import AlephNode.ClosedStores
import AlephNode.DataStore
import AlephNode.FinalitySafety
import AlephNode.NotificationSources

/-!
# Aggregators sign along one way

Every honest node knows its own part of the block tree, begins the aggregator of a session at
its own finalized block, and handles the ordered items at its own pace. If the items are
available when they are handled, all nodes that are not ahead of the session sign the blocks
that the items pass on from the last block of the session before.
-/
namespace AlephNode.Consensus

variable {ι Hash A S : Type}

/-- What the aggregator of a session at a node went through, the most recent event first. -/
def aggregatorEvents [DecidableEq ι] (i : ι) (session : SessionId) :
    List (ι × Event Hash A S) → List (RunAggregator.Event Hash S)
  | [] => []
  | (j, .aggregator other event) :: events =>
    if j = i ∧ other = session then event :: aggregatorEvents i session events
    else aggregatorEvents i session events
  | _ :: events => aggregatorEvents i session events

/-- The items that the aggregator of a session at a node has received. -/
def deliveredItems [DecidableEq ι] (i : ι) (session : SessionId)
    (events : List (ι × Event Hash A S)) : List (AlephData Hash) :=
  (RunAggregator.deliveredBatches (aggregatorEvents i session events)).flatten

/-- In the session all nodes receive the same items in the same order. -/
def Ordered [DecidableEq ι] (session : SessionId) (items : List (AlephData Hash))
    (events : List (ι × Event Hash A S)) : Prop :=
  ∀ i, deliveredItems i session events <+: items

/-- What a node imports is closed under parents, and items are available when they are
handled. -/
def NodeProvided (consensus : Consensus ι Hash A) (node : Node Hash A S) : Event Hash A S → Prop
  | .finality (.headersImported headers _) => consensus.tree.ClosedIn headers
  | .aggregator _ (.data newData) => DataStore.Available node.finality.handler.client newData
  | _ => True

/-- The surroundings of the nodes are as assumed, and the nodes get what they need. -/
def Supplied [SignatureScheme A S] [Codec Hash] (consensus : Consensus ι Hash A)
    (nodes : ι → Node Hash A S) (event : ι × Event Hash A S) : Prop :=
  Assumed consensus nodes event ∧ NodeProvided consensus (nodes event.1) event.2

def Within (consensus : Consensus ι Hash A) (session : SessionId) (node : Node Hash A S) : Prop :=
  node.finality.handler.client.finalizedNumber ≤
    lastBlockOfSession session consensus.sessionPeriod

structure Root (consensus : Consensus ι Hash A) (finalized : Hash → Prop) (session : SessionId)
    (root : Hash) : Prop where
  marked : root = consensus.genesis ∨ finalized root
  height : consensus.tree.height root =
    session.val.toNat * consensus.sessionPeriod.val.toNat - 1

section Way
variable [DecidableEq Hash] {consensus : Consensus ι Hash A}
  {session : SessionId} {items : List (AlephData Hash)} {finalized finalized' : Hash → Prop}

/-- The block that ends the session before, and what the items pass on from there. -/
def way (consensus : Consensus ι Hash A) (session : SessionId) (items : List (AlephData Hash))
    (root : Hash) : List Hash :=
  root :: RunAggregator.chase consensus.tree
    (lastBlockOfSession session consensus.sessionPeriod) root items

def OnWay (consensus : Consensus ι Hash A) (session : SessionId) (items : List (AlephData Hash))
    (finalized : Hash → Prop) (block : Hash) : Prop :=
  ∃ root, Root consensus finalized session root ∧ block ∈ way consensus session items root

/-- A task of the session that began on its way, and has started what the items pass on. -/
structure Joins (consensus : Consensus ι Hash A) (session : SessionId)
    (items : List (AlephData Hash)) (finalized : Hash → Prop) (finalizedNumber : ℕ)
    (events : List (RunAggregator.Event Hash S)) (root base : Hash)
    (task : RunAggregator Hash S) : Prop where
  rooted : Root consensus finalized session root
  based : Base consensus finalized session base
  onWay : base ∈ way consensus session items root
  below : consensus.tree.height base ≤ finalizedNumber
  followed : RunAggregator.Followed consensus.tree base
    (lastBlockOfSession session consensus.sessionPeriod) events task task.aggregator.startedRmc

omit [DecidableEq Hash] in
theorem Root.mono (hfinalized : ∀ h, finalized h → finalized' h) {root : Hash}
    (h : Root consensus finalized session root) : Root consensus finalized' session root :=
  ⟨h.marked.imp_right (hfinalized root), h.height⟩

theorem OnWay.mono (hfinalized : ∀ h, finalized h → finalized' h) {block : Hash}
    (h : OnWay consensus session items finalized block) :
    OnWay consensus session items finalized' block := by
  rcases h with ⟨root, hroot, hmem⟩
  exact ⟨root, hroot.mono hfinalized, hmem⟩

theorem Joins.mono (hfinalized : ∀ h, finalized h → finalized' h) {number number' : ℕ}
    (hle : number ≤ number') {events : List (RunAggregator.Event Hash S)}
    {root base : Hash} {task : RunAggregator Hash S}
    (h : Joins consensus session items finalized number events root base task) :
    Joins consensus session items finalized' number' events root base task :=
  ⟨h.rooted.mono hfinalized, h.based.mono hfinalized, h.onWay, h.below.trans hle, h.followed⟩

theorem way_isChain {root : Hash} :
    (way consensus session items root).IsChain consensus.tree.IsParent :=
  RunAggregator.isChain_chase

section Joins
variable {number : ℕ} {events : List (RunAggregator.Event Hash S)}
  {root base block : Hash} {task : RunAggregator Hash S}

/-- The task has processed a part of the items of the session. -/
theorem Joins.processed (h : Joins consensus session items finalized number events root base task)
    (hdelivered : (RunAggregator.deliveredBatches events).flatten <+: items) :
    ∃ processed missing,
      items = processed ++ (RunAggregator.pendingItems task.position ++ missing) ∧
      task.aggregator.startedRmc = RunAggregator.chase consensus.tree
        (lastBlockOfSession session consensus.sessionPeriod) base processed := by
  rcases h.followed.items with ⟨processed, hitems, hpassed⟩
  rcases hdelivered with ⟨missing, hmissing⟩
  refine ⟨processed, missing, ?_, hpassed⟩
  rw [← hmissing, hitems, List.append_assoc]

theorem Joins.way_append (h : Joins consensus session items finalized number events root base task) :
    ∃ earlier, way consensus session items root =
      earlier ++ base :: RunAggregator.chase consensus.tree
        (lastBlockOfSession session consensus.sessionPeriod) base items :=
  RunAggregator.chase_of_mem h.onWay

theorem Joins.started (h : Joins consensus session items finalized number events root base task)
    (hdelivered : (RunAggregator.deliveredBatches events).flatten <+: items)
    (hmem : block ∈ task.aggregator.startedRmc) : block ∈ way consensus session items root := by
  rcases h.processed hdelivered with ⟨processed, missing, horder, hpassed⟩
  rcases h.way_append with ⟨earlier, hway⟩
  rw [hpassed] at hmem
  rw [hway, horder]
  apply List.mem_append_right
  apply List.mem_cons_of_mem
  exact RunAggregator.chase_subset hmem

/-- A task that has handled what another one has received has started what the other one has
started, but for blocks below the place where it began itself. -/
theorem Joins.caught_up {number' : ℕ} {events' : List (RunAggregator.Event Hash S)} {base' : Hash}
    {task' : RunAggregator Hash S}
    (h : Joins consensus session items finalized number events root base task)
    (h' : Joins consensus session items finalized' number' events' root base' task')
    (hdelivered : (RunAggregator.deliveredBatches events').flatten <+: items)
    (hbehind : (RunAggregator.deliveredBatches events).flatten <+:
      (RunAggregator.deliveredBatches events').flatten)
    (hdone : RunAggregator.pendingItems task'.position = [])
    (hmem : block ∈ task.aggregator.startedRmc) :
    block ∈ task'.aggregator.startedRmc ∨ AncestorOrEqual consensus.tree.IsParent block base' := by
  have hway := h.started (hbehind.trans hdelivered) hmem
  by_cases habove : consensus.tree.height base' < consensus.tree.height block
  · left
    rcases h.followed.items with ⟨processed, hitems, hpassed⟩
    rcases h'.followed.items with ⟨processed', hitems', hpassed'⟩
    rw [hdone, List.append_nil] at hitems'
    rw [hitems, hitems'] at hbehind
    rcases (List.prefix_append _ _).trans hbehind with ⟨later, rfl⟩
    rcases hdelivered with ⟨missing, hmissing⟩
    rw [hitems', List.append_assoc] at hmissing
    have hbase := h.onWay
    have hbase' := h'.onWay
    rw [way, ← hmissing] at hbase hbase'
    rw [hpassed] at hmem
    rw [hpassed']
    exact RunAggregator.chase_subset (RunAggregator.chase_agrees hbase hbase' hmem habove)
  · right
    exact (onOneChain_of_isChain way_isChain hway h'.onWay).ancestor_of_rank_le
      (fun _ _ hparent => hparent.height_lt) (Nat.not_lt.mp habove)

end Joins
end Way

section Marked
variable {consensus : Consensus ι Hash A} {nodes : ι → Node Hash A S} {session : SessionId}
  {b c root root' : Hash}
  (hsound : ∀ i, Sound consensus (Finalized nodes) (Started nodes) (nodes i))
  (hfew : ∀ session, 3 * (consensus.byzantine session).card < (consensus.authorities session).length)
include hsound hfew

theorem marked_onOneChain (hb : b = consensus.genesis ∨ Finalized nodes b)
    (hc : c = consensus.genesis ∨ Finalized nodes c) : OnOneChain consensus.tree.IsParent b c := by
  by_cases hfinalized : Finalized nodes b ∨ Finalized nodes c
  · have hperiod : 0 < consensus.sessionPeriod.val.toNat := by
      rcases hfinalized with hb | hc
      · rcases justified_of_finalized hsound hb with ⟨_, hperiod, _⟩
        exact hperiod
      · rcases justified_of_finalized hsound hc with ⟨_, hperiod, _⟩
        exact hperiod
    exact (sessionedChains hsound hperiod hfew).onOneChain hb hc
  · rw [not_or] at hfinalized
    rw [hb.resolve_right hfinalized.1, hc.resolve_right hfinalized.2]
    exact .inl .refl

theorem Root.unique (h : Root consensus (Finalized nodes) session root)
    (h' : Root consensus (Finalized nodes) session root') : root = root' := by
  have hchain := marked_onOneChain hsound hfew h.marked h'.marked
  have hheight : consensus.tree.height root' = consensus.tree.height root := by
    rw [h.height, h'.height]
  have hancestor := hchain.ancestor_of_rank_le (fun _ _ hparent => hparent.height_lt) hheight.ge
  exact hancestor.eq_of_rank_le (fun _ _ hparent => hparent.height_lt) hheight.le

end Marked

/-- The handler of the node is attentive, and its client knows all ancestors of what it knows. -/
structure Informed [SignatureScheme A S] [MultiKeychain S] [Codec Hash] [Codec (SignatureSet S)]
    (consensus : Consensus ι Hash A) (node : Node Hash A S) : Prop where
  attentive : JustificationHandler.Attentive consensus.authorities node.finality
  closed : consensus.tree.ClosedIn node.finality.handler.client.toHeaderStore

/-- What holds at every point of a run of the nodes, for one session. -/
structure Agreed [SignatureScheme A S] [MultiKeychain S] [Codec Hash] [Codec (SignatureSet S)]
    [DecidableEq ι] [DecidableEq Hash] (consensus : Consensus ι Hash A) (session : SessionId)
    (items : List (AlephData Hash)) (events : List (ι × Event Hash A S))
    (nodes : ι → Node Hash A S) : Prop where
  sound : ∀ i, Sound consensus (Finalized nodes) (Started nodes) (nodes i)
  informed : ∀ i, Informed consensus (nodes i)
  idle : ∀ i, (nodes i).aggregators.lookup session = none → aggregatorEvents i session events = []
  finalized : ∀ block, Finalized nodes block →
    consensus.tree.height block / consensus.sessionPeriod.val.toNat = session.val.toNat →
    OnWay consensus session items (Finalized nodes) block
  joined : ∀ i task, (nodes i).aggregators.lookup session = some task →
    Within consensus session (nodes i) → ∃ root base,
      Joins consensus session items (Finalized nodes)
        (nodes i).finality.handler.client.finalizedNumber (aggregatorEvents i session events)
        root base task

section Steps
variable [SignatureScheme A S] [MultiKeychain S] [Codec Hash] [Codec (SignatureSet S)]
  {consensus : Consensus ι Hash A} {node : Node Hash A S}

theorem informed_atGenesis (h : AtGenesis consensus node)
    (hclosed : consensus.tree.ClosedIn node.finality.handler.client.toHeaderStore)
    (hgenesis : node.finality.handler.client.number consensus.genesis = some 0) :
    Informed consensus node where
  attentive := by
    refine ⟨h.sessionAuthorities, ?_, ?_⟩
    · rw [h.finalizedHash, h.finalizedNumber, hgenesis]
    · intro _ _ _ hwaiting
      simp [h.loop] at hwaiting
  closed := hclosed

/-- A move of the handler keeps a node informed, and its client only grows. -/
theorem Informed.finality (h : Informed consensus node) {started : ι → Hash → Prop}
    {event : JustificationHandler.Event Hash A S} {task : JustificationHandler.Task Hash A}
    (hassumed : NodeAssumed consensus started node (.finality event))
    (hprovided : NodeProvided consensus node (.finality event))
    (hstep : JustificationHandler.Step node.finality event task) :
    Informed consensus { node with finality := task } ∧
      node.finality.handler.client.Grows task.handler.client := by
  have hmatch : JustificationHandler.NumbersMatch node.finality event := by
    cases event with
    | notified => exact hassumed.1
    | _ => trivial
  have hlists : ∀ sessionAuthorities, event = .sessionAuthoritiesChanged sessionAuthorities →
      JustificationHandler.Lists sessionAuthorities consensus.authorities := by
    rintro sessionAuthorities rfl
    exact hassumed
  obtain ⟨hattentive, hlater⟩ :=
    JustificationHandler.attentive_step h.attentive hmatch hlists hstep
  refine ⟨⟨hattentive, ?_⟩, hlater.headers, hlater.finalized⟩
  by_cases himport : ∃ headers bestNumber, event = .headersImported headers bestNumber
  · rcases himport with ⟨headers, bestNumber, rfl⟩
    rcases node with ⟨⟨handler, loop⟩, aggregators⟩
    cases hstep with
    | headersImported => exact hprovided
  · have hheaders := JustificationHandler.headers_step hstep
      (fun headers bestNumber hevent => himport ⟨headers, bestNumber, hevent⟩)
    dsimp only
    rw [hheaders]
    exact h.closed

end Steps

section Agreement
variable [SignatureScheme A S] [MultiKeychain S] [Codec Hash] [Codec (SignatureSet S)]
  [DecidableEq ι] [DecidableEq Hash] {consensus : Consensus ι Hash A}
  {session : SessionId} {items : List (AlephData Hash)} {events : List (ι × Event Hash A S)}
  {nodes nodes' : ι → Node Hash A S} {i : ι} {block : Hash}

omit [SignatureScheme A S] [MultiKeychain S] [Codec Hash] [Codec (SignatureSet S)]
  [DecidableEq Hash] in
/-- What was delivered is delivered in order at every earlier point. -/
theorem Ordered.tail {event : ι × Event Hash A S} (h : Ordered session items (event :: events)) :
    Ordered session items events := by
  intro i
  refine List.IsPrefix.trans ?_ (h i)
  rcases event with ⟨j, event⟩
  cases event with
  | finality | aggregatorStarted => exact List.prefix_rfl
  | aggregator other event =>
    unfold deliveredItems
    rw [aggregatorEvents]
    split
    · cases event with
      | batch batch =>
        rw [RunAggregator.deliveredBatches_batch, List.flatten_append]
        exact List.prefix_append _ _
      | _ => exact List.prefix_rfl
    · exact List.prefix_rfl

/-- The number that a client calls finalized is that of the finalized block. -/
theorem Agreed.height (h : Agreed consensus session items events nodes) (i : ι) :
    consensus.tree.height (nodes i).finality.handler.client.finalizedHash =
      (nodes i).finality.handler.client.finalizedNumber := by
  rw [HeaderStore.height, (h.sound i).number, Option.getD_some]

/-- The finalized block of a client, if it is within the session, lies on the way of the
session. -/
theorem Agreed.finalized_way (h : Agreed consensus session items events nodes)
    (hlow : session.val.toNat * consensus.sessionPeriod.val.toNat ≤
      (nodes i).finality.handler.client.finalizedNumber)
    (hpos : 0 < (nodes i).finality.handler.client.finalizedNumber)
    (hwithin : Within consensus session (nodes i)) :
    OnWay consensus session items (Finalized nodes)
      (nodes i).finality.handler.client.finalizedHash := by
  have hheight := h.height i
  have hfinalized : Finalized nodes (nodes i).finality.handler.client.finalizedHash := by
    apply (h.sound i).finalizedHash.resolve_left
    intro hgenesis
    rw [hgenesis, HeaderStore.height, consensus.genesis_number, Option.getD_some] at hheight
    omega
  rcases justified_of_finalized h.sound hfinalized with ⟨_, hperiod, _⟩
  have hinside := number_in_session (s := session) hperiod (Nat.sub_add_cancel hpos ▸ hlow)
    (Nat.sub_one_lt_of_lt hpos) hwithin
  apply h.finalized _ hfinalized
  rw [hheight, hinside.2.1]

/-- An aggregator of a session that is not over begins on the way of the session. -/
theorem Agreed.joins_start (h : Agreed consensus session items events nodes)
    (hbegun : session.val.toNat * consensus.sessionPeriod.val.toNat ≤
      (nodes i).finality.handler.client.finalizedNumber + 1)
    (hwithin : Within consensus session (nodes i)) :
    ∃ root base, Joins consensus session items (Finalized nodes)
      (nodes i).finality.handler.client.finalizedNumber [] root base
      (.start (nodes i).finality.handler.client
        (lastBlockOfSession session consensus.sessionPeriod) : RunAggregator Hash S) := by
  have hheight := h.height i
  suffices hway : OnWay consensus session items (Finalized nodes)
      (nodes i).finality.handler.client.finalizedHash by
    rcases hway with ⟨root, hroot, honWay⟩
    refine ⟨root, _, hroot, ⟨(h.sound i).finalizedHash, ?_⟩, honWay, hheight.le,
      RunAggregator.followed_start⟩
    rwa [hheight]
  by_cases hend : (nodes i).finality.handler.client.finalizedNumber =
      session.val.toNat * consensus.sessionPeriod.val.toNat - 1
  · exact ⟨_, ⟨(h.sound i).finalizedHash, hheight.trans hend⟩, List.mem_cons_self⟩
  · exact h.finalized_way (by omega) (by omega) hwithin

section Steps
variable (hfew : ∀ session,
  3 * (consensus.byzantine session).card < (consensus.authorities session).length)
include hfew

/-- The item that is handled next extends in the client what it extends in the tree. -/
theorem Agreed.same_extension (h : Agreed consensus session items events nodes)
    (hordered : Ordered session items events) {task : RunAggregator Hash S} {newData : AlephData Hash}
    {rest : List (AlephData Hash)} (hlookup : (nodes i).aggregators.lookup session = some task)
    (hwithin : Within consensus session (nodes i))
    (hprocessing : task.position = .processing (newData :: rest))
    (havailable : DataStore.Available (nodes i).finality.handler.client newData) :
    ChainExtension.chainExtensionStep (nodes i).finality.handler.client.toHeaderStore
        task.lastFinalized newData =
      ChainExtension.chainExtensionStep consensus.tree task.lastFinalized newData := by
  rcases h.informed i with ⟨hattentive, hclosed⟩
  cases hknown : (nodes i).finality.handler.client.header newData.hash with
  | some header => exact ChainExtension.chainExtensionStep_of_known hclosed hknown
  | none =>
    rw [ChainExtension.chainExtensionStep_of_unknown hknown]
    by_contra hne
    have hextends := ChainExtension.extends_of_chainExtensionStep (Ne.symm hne)
    have hfinal : newData.number ≤ (nodes i).finality.handler.client.finalizedNumber := by
      rcases havailable with hsome | hfinal
      · rw [hknown] at hsome
        cases hsome
      · exact hfinal
    rcases h.joined i task hlookup hwithin with ⟨root, base, hjoins⟩
    rcases hjoins.processed (hordered i) with ⟨processed, missing, horder, hpassed⟩
    rw [hprocessing, RunAggregator.pendingItems_processing, List.cons_append] at horder
    have hheight := h.height i
    -- the item lies above the base, so the finalized block is in the session
    have hbase : consensus.tree.height base ≤ consensus.tree.height task.lastFinalized := by
      have hancestor := ancestor_getLast_of_isChain hjoins.followed.pursues.chain.chain
        List.mem_cons_self hjoins.followed.pursues.chain.last
      exact hancestor.rank_le (fun _ _ hparent => hparent.height_lt)
    have habove := hextends.2.height_lt
    have hnumber : consensus.tree.height newData.hash = newData.number := by
      rw [HeaderStore.height, hextends.1, Option.getD_some]
    have hbegun := hjoins.based.2
    rcases h.finalized_way (by omega) (by omega) hwithin with ⟨root', hroot', hway⟩
    have hsame := hroot'.unique h.sound hfew hjoins.rooted
    subst hsame
    have hreached := RunAggregator.mem_chase_of_height hjoins.onWay hway (by omega)
    have hlast : (RunAggregator.chase consensus.tree
        (lastBlockOfSession session consensus.sessionPeriod) base processed).getLast?.getD base =
          task.lastFinalized := by
      rw [← hpassed]
      exact hjoins.followed.pursues.last.symm
    rw [horder] at hreached
    have hancestor := RunAggregator.ancestor_of_chase hextends hlast (hfinal.trans hwithin)
      hreached (by omega)
    rcases Option.map_eq_some_iff.mp hattentive.finalized with ⟨header, hheader, _⟩
    rcases hclosed.ancestor hancestor hheader with ⟨ancestorHeader, hancestorHeader⟩
    rw [hknown] at hancestorHeader
    cases hancestorHeader

theorem Agreed.joins_step (h : Agreed consensus session items events nodes)
    (hordered : Ordered session items events) {task task' : RunAggregator Hash S}
    {event : RunAggregator.Event Hash S}
    (hlookup : (nodes i).aggregators.lookup session = some task)
    (hwithin : Within consensus session (nodes i))
    (hprovided : NodeProvided consensus (nodes i) (.aggregator session event))
    (hstep : RunAggregator.Step (nodes i).finality.handler.client.toHeaderStore task event task') :
    ∃ root base, Joins consensus session items (Finalized nodes)
      (nodes i).finality.handler.client.finalizedNumber
      (event :: aggregatorEvents i session events) root base task' := by
  rcases h.joined i task hlookup hwithin with ⟨root, base, hjoins⟩
  have hsame : ∀ newData, event = .data newData →
      ChainExtension.chainExtensionStep (nodes i).finality.handler.client.toHeaderStore
          task.lastFinalized newData =
        ChainExtension.chainExtensionStep consensus.tree task.lastFinalized newData := by
    rintro newData rfl
    cases hstep with
    | data hprocessing =>
      exact h.same_extension hfew hordered hlookup hwithin hprocessing hprovided
  have htree := hstep.in_tree (h.sound i).headers hsame
  have hfollowed := RunAggregator.followed_step hjoins.followed ⟨htree, rfl⟩
  rw [← hfollowed.pursues.recorded] at hfollowed
  exact ⟨root, base, hjoins.rooted, hjoins.based, hjoins.onWay, hjoins.below, hfollowed⟩

omit [DecidableEq Hash] [DecidableEq ι] [SignatureScheme A S] [MultiKeychain S] [Codec Hash]
  [Codec (SignatureSet S)] in
/-- If a node has finalized a block beyond a session, the last block of the session is
finalized. -/
theorem exists_finalized_end
    (hsound : ∀ i, Sound consensus (Finalized nodes) (Started nodes) (nodes i))
    (hperiod : 0 < consensus.sessionPeriod.val.toNat)
    (hlast : lastBlockOfSession session consensus.sessionPeriod =
      finalNumber session consensus.sessionPeriod)
    (hbeyond : ¬Within consensus session (nodes i)) :
    ∃ d, (d = consensus.genesis ∨ Finalized nodes d) ∧
      consensus.tree.height d = lastBlockOfSession session consensus.sessionPeriod := by
  have hheight : consensus.tree.height (nodes i).finality.handler.client.finalizedHash =
      (nodes i).finality.handler.client.finalizedNumber := by
    rw [HeaderStore.height, (hsound i).number, Option.getD_some]
  rw [Within, not_le, hlast, finalNumber] at hbeyond
  have hlater : session.val.toNat < consensus.tree.height
      (nodes i).finality.handler.client.finalizedHash / consensus.sessionPeriod.val.toNat := by
    rw [hheight, ← Nat.succ_le_iff, Nat.le_div_iff_mul_le hperiod, Nat.succ_eq_add_one]
    omega
  obtain ⟨d, hd, _, hend⟩ := (sessionedChains hsound hperiod hfew).exists_marked_end
    (hsound i).finalizedHash hlater
  refine ⟨d, hd, ?_⟩
  rw [hlast, finalNumber, ← hend, Nat.add_sub_cancel]

/-- After a move of a handler, all finalized blocks of the session are on its way. -/
theorem Agreed.finalized_step (h : Agreed consensus session items events nodes)
    (hordered : Ordered session items events)
    (hsound : ∀ i, Sound consensus (Finalized nodes') (Started nodes') (nodes' i))
    (hgrows : ∀ block, Finalized nodes block → Finalized nodes' block)
    (haggregators : ∀ i, (nodes' i).aggregators = (nodes i).aggregators)
    (hblock : Finalized nodes' block)
    (hinside : consensus.tree.height block / consensus.sessionPeriod.val.toNat =
      session.val.toNat) : OnWay consensus session items (Finalized nodes') block := by
  rcases justified_of_finalized hsound hblock with ⟨_, hperiod, hpos, _, hquorum⟩
  rcases exists_started_both (hfew _) hquorum hquorum with ⟨j, hstarted', _⟩
  have hstarted : Started nodes j block := by
    rcases hstarted' with ⟨session, task, hlookup, hmem⟩
    exact ⟨session, task, haggregators j ▸ hlookup, hmem⟩
  obtain ⟨other, task, base, hlookup, hchain, hmem, hbase, hheight⟩ :=
    started_in_session h.sound hperiod hstarted
  have hsame : other = session := session_ext (hheight.symm.trans hinside)
  subst hsame
  by_cases hwithin : Within consensus other (nodes j)
  · rcases h.joined j task hlookup hwithin with ⟨root, base', hjoins⟩
    exact ⟨root, hjoins.rooted.mono hgrows, hjoins.started (hordered j) hmem⟩
  · -- the way of the session leads up to a finalized block, and this one is below it
    have habove := (hchain.ancestor_base hmem).2
    have hbelow := ((h.sound j).chains other task hlookup).1 ▸ hchain.bounded block hmem
    rcases number_in_session hperiod hbase.2 habove hbelow with ⟨_, _, hlast⟩
    rcases exists_finalized_end hfew h.sound hperiod hlast hwithin with ⟨d, hmarked, hd⟩
    have hfinalized : Finalized nodes d := by
      apply hmarked.resolve_left
      rintro rfl
      rw [HeaderStore.height, consensus.genesis_number, Option.getD_some] at hd
      omega
    have hend := number_in_session hperiod hbase.2 (habove.trans_le (hbelow.trans hd.ge)) hd.le
    rcases h.finalized d hfinalized hend.2.1 with ⟨root, hroot, hway⟩
    refine ⟨root, hroot.mono hgrows, ?_⟩
    have hchain' := marked_onOneChain hsound hfew (.inr hblock) (.inr (hgrows d hfinalized))
    have hancestor := hchain'.ancestor_of_rank_le (fun _ _ hparent => hparent.height_lt)
      (hbelow.trans hd.ge)
    have hlow := hroot.height
    have hbegun := hbase.2
    exact mem_of_ancestor_of_isChain (fun _ _ hparent => hparent.height_lt)
      (fun _ _ _ hp hq => hp.unique hq) way_isChain hway hancestor (by omega)

theorem Agreed.finality (h : Agreed consensus session items events nodes)
    (hordered : Ordered session items events)
    {event : JustificationHandler.Event Hash A S} {task : JustificationHandler.Task Hash A}
    (hsupplied : Supplied consensus nodes (i, .finality event))
    (hstep : JustificationHandler.Step (nodes i).finality event task) :
    Agreed consensus session items ((i, .finality event) :: events)
      (Function.update nodes i { nodes i with finality := task }) := by
  rcases hsupplied with ⟨hassumed, hprovided⟩
  rcases (h.informed i).finality hassumed.1 hprovided hstep with ⟨hinformed, _, hnumber⟩
  have hfits : Fits consensus (.finality event : Event Hash A S) := trivial
  have hsound := sound_step h.sound hfits ⟨hassumed, _, .finality hstep, rfl⟩
  dsimp only at hsound
  have hgrows : ∀ block, Finalized nodes block →
      Finalized (Function.update nodes i { nodes i with finality := task }) block := by
    rintro _ ⟨k, call, hcall, hsucceeded, rfl⟩
    refine ⟨k, call, ?_, hsucceeded, rfl⟩
    by_cases hk : k = i
    · subst hk
      rw [Function.update_self]
      exact JustificationHandler.finalizeCalls_subset hstep hcall
    · rwa [Function.update_of_ne hk]
  have haggregators : ∀ k, (Function.update nodes i { nodes i with finality := task } k).aggregators =
      (nodes k).aggregators := by
    intro k
    by_cases hk : k = i
    · subst hk
      rw [Function.update_self]
    · rw [Function.update_of_ne hk]
  constructor
  · exact hsound
  · intro k
    by_cases hk : k = i
    · subst hk
      rwa [Function.update_self]
    · rw [Function.update_of_ne hk]
      exact h.informed k
  · intro k hnone
    exact h.idle k (haggregators k ▸ hnone)
  · intro block hblock hinside
    exact h.finalized_step hfew hordered hsound hgrows haggregators hblock hinside
  · intro k task' hlookup hwithin
    rw [haggregators] at hlookup
    by_cases hk : k = i
    · subst hk
      rw [Function.update_self] at hwithin ⊢
      rcases h.joined k task' hlookup (hnumber.trans hwithin) with ⟨root, base, hjoins⟩
      exact ⟨root, base, hjoins.mono hgrows hnumber⟩
    · rw [Function.update_of_ne hk] at hwithin ⊢
      rcases h.joined k task' hlookup hwithin with ⟨root, base, hjoins⟩
      exact ⟨root, base, hjoins.mono hgrows (Nat.le_refl _)⟩

omit hfew [SignatureScheme A S] [MultiKeychain S] [Codec Hash] [Codec (SignatureSet S)]
  [DecidableEq Hash] in
private theorem finalized_of_inserted {aggregators : FiniteMap SessionId (RunAggregator Hash S)} :
    Finalized (Function.update nodes i { nodes i with aggregators := aggregators }) block ↔
      Finalized nodes block := by
  have hfinality : ∀ k, (Function.update nodes i
      { nodes i with aggregators := aggregators } k).finality = (nodes k).finality := by
    intro k
    by_cases hk : k = i
    · subst hk
      rw [Function.update_self]
    · rw [Function.update_of_ne hk]
  simp only [Finalized, hfinality]

omit hfew in
private theorem Agreed.inserted (h : Agreed consensus session items events nodes)
    {event : ι × Event Hash A S} {other : SessionId} {task : RunAggregator Hash S}
    (hfits : Fits consensus event.2) (hassumed : Assumed consensus nodes event)
    (hstep : Step consensus nodes event (Function.update nodes i
      { nodes i with aggregators := (nodes i).aggregators.insert other task }))
    (hothers : ∀ k, ¬(i = k ∧ other = session) →
      aggregatorEvents k session (event :: events) = aggregatorEvents k session events)
    (hjoined : other = session → Within consensus session (nodes i) → ∃ root base,
      Joins consensus session items (Finalized nodes)
        (nodes i).finality.handler.client.finalizedNumber
        (aggregatorEvents i session (event :: events)) root base task) :
    Agreed consensus session items (event :: events) (Function.update nodes i
      { nodes i with aggregators := (nodes i).aggregators.insert other task }) := by
  have hgrows : ∀ block, Finalized nodes block → Finalized (Function.update nodes i
      { nodes i with aggregators := (nodes i).aggregators.insert other task }) block :=
    fun _ => finalized_of_inserted.mpr
  constructor
  · exact sound_step h.sound hfits ⟨hassumed, hstep⟩
  · intro k
    by_cases hk : k = i
    · subst hk
      rw [Function.update_self]
      exact ⟨(h.informed k).attentive, (h.informed k).closed⟩
    · rw [Function.update_of_ne hk]
      exact h.informed k
  · intro k hnone
    by_cases hk : k = i
    · subst hk
      rw [Function.update_self, FiniteMap.lookup_insert] at hnone
      split at hnone
      · cases hnone
      · next hother =>
        rw [hothers k (fun hsame => hother hsame.2.symm)]
        exact h.idle k hnone
    · rw [Function.update_of_ne hk] at hnone
      rw [hothers k (fun hsame => hk hsame.1.symm)]
      exact h.idle k hnone
  · intro block hblock hinside
    exact (h.finalized block (finalized_of_inserted.mp hblock) hinside).mono hgrows
  · intro k task' hlookup hwithin
    by_cases hk : k = i
    · subst hk
      rw [Function.update_self] at hlookup hwithin ⊢
      rw [FiniteMap.lookup_insert] at hlookup
      split at hlookup
      · next hsame =>
        cases hlookup
        rcases hjoined hsame.symm hwithin with ⟨root, base, hjoins⟩
        exact ⟨root, base, hjoins.mono hgrows (Nat.le_refl _)⟩
      · next hother =>
        rw [hothers k (fun hsame => hother hsame.2.symm)]
        rcases h.joined k task' hlookup hwithin with ⟨root, base, hjoins⟩
        exact ⟨root, base, hjoins.mono hgrows (Nat.le_refl _)⟩
    · rw [Function.update_of_ne hk] at hlookup hwithin ⊢
      rw [hothers k (fun hsame => hk hsame.1.symm)]
      rcases h.joined k task' hlookup hwithin with ⟨root, base, hjoins⟩
      exact ⟨root, base, hjoins.mono hgrows (Nat.le_refl _)⟩

theorem agreed_step (h : Agreed consensus session items events nodes) {event : ι × Event Hash A S}
    (hordered : Ordered session items (event :: events)) (hfits : Fits consensus event.2)
    (hstep : Guarded (Step consensus) (Supplied consensus) nodes event nodes') :
    Agreed consensus session items (event :: events) nodes' := by
  rcases hstep with ⟨hsupplied, node, hnode, rfl⟩
  rcases event with ⟨i, event⟩
  rcases hsupplied with ⟨hassumed, hprovided⟩
  dsimp only at hnode hprovided
  cases hnode with
  | finality step => exact h.finality hfew hordered.tail ⟨hassumed, hprovided⟩ step
  | aggregatorStarted other =>
    refine h.inserted hfits hassumed ⟨_, .aggregatorStarted other, rfl⟩ (fun _ _ => rfl) ?_
    rintro rfl hwithin
    have hidle : aggregatorEvents i other ((i, .aggregatorStarted other) :: events) = [] :=
      h.idle i hassumed.1
    rw [hidle]
    exact h.joins_start (session_start_le hfits hassumed.2) hwithin
  | @aggregator other task event task' running step =>
    refine h.inserted hfits hassumed ⟨_, .aggregator running step, rfl⟩ ?_ ?_
    · intro k hother
      exact if_neg hother
    · rintro rfl hwithin
      have hevents : aggregatorEvents i other ((i, .aggregator other event) :: events) =
          event :: aggregatorEvents i other events := if_pos ⟨rfl, rfl⟩
      rw [hevents]
      exact h.joins_step hfew hordered.tail running hwithin hprovided step

theorem agreed_of_run {start : ι → Node Hash A S} (hstart : ∀ i, AtGenesis consensus (start i))
    (hclosed : ∀ i, consensus.tree.ClosedIn (start i).finality.handler.client.toHeaderStore)
    (hgenesis : ∀ i, (start i).finality.handler.client.number consensus.genesis = some 0)
    (hrun : Run (Guarded (Step consensus) (Supplied consensus)) start events nodes)
    (hfits : ∀ event ∈ events, Fits consensus event.2) (hordered : Ordered session items events) :
    Agreed consensus session items events nodes := by
  revert hfits hordered
  apply hrun.history_invariant (fun events nodes => (∀ event ∈ events, Fits consensus event.2) →
    Ordered session items events → Agreed consensus session items events nodes)
  · intro _ _
    constructor
    · intro i
      exact sound_atGenesis (hstart i)
    · intro i
      exact informed_atGenesis (hstart i) (hclosed i) (hgenesis i)
    · intro i _
      rfl
    · rintro _ ⟨i, call, hcall, _⟩
      rw [(hstart i).finalizeCalls] at hcall
      cases hcall
    · intro i task hlookup
      rw [(hstart i).aggregators] at hlookup
      cases hlookup
  · intro events nodes event nodes' _ ih hstep hfits hordered
    rw [List.forall_mem_cons] at hfits
    exact agreed_step hfew (ih hfits.2 hordered.tail) hordered hfits.1 hstep

/-- The aggregators of a session sign along one chain at all nodes that have not finalized anything
beyond the session. One that has handled what another one has received has signed what the other
one has signed, but for blocks that its own client has finalized. -/
theorem agree_of_run {start : ι → Node Hash A S} (hstart : ∀ i, AtGenesis consensus (start i))
    (hclosed : ∀ i, consensus.tree.ClosedIn (start i).finality.handler.client.toHeaderStore)
    (hgenesis : ∀ i, (start i).finality.handler.client.number consensus.genesis = some 0)
    (hrun : Run (Guarded (Step consensus) (Supplied consensus)) start events nodes)
    (hfits : ∀ event ∈ events, Fits consensus event.2) (hordered : Ordered session items events)
    {j : ι} {task task' : RunAggregator Hash S}
    (hlookup : (nodes i).aggregators.lookup session = some task)
    (hlookup' : (nodes j).aggregators.lookup session = some task')
    (hwithin : Within consensus session (nodes i))
    (hwithin' : Within consensus session (nodes j)) :
    (∀ b ∈ task.aggregator.startedRmc, ∀ c ∈ task'.aggregator.startedRmc,
      OnOneChain consensus.tree.IsParent b c) ∧
    (RunAggregator.pendingItems task'.position = [] →
      deliveredItems i session events <+: deliveredItems j session events →
      ∀ b ∈ task.aggregator.startedRmc, b ∈ task'.aggregator.startedRmc ∨
        AncestorOrEqual consensus.tree.IsParent b
          (nodes j).finality.handler.client.finalizedHash) := by
  have hagreed := agreed_of_run hfew hstart hclosed hgenesis hrun hfits hordered
  rcases hagreed.joined i task hlookup hwithin with ⟨root, base, hjoins⟩
  rcases hagreed.joined j task' hlookup' hwithin' with ⟨root', base', hjoins'⟩
  have hsame := hjoins'.rooted.unique hagreed.sound hfew hjoins.rooted
  subst hsame
  constructor
  · intro b hb c hc
    exact onOneChain_of_isChain way_isChain (hjoins.started (hordered i) hb)
      (hjoins'.started (hordered j) hc)
  · intro hdone hbehind b hb
    apply (hjoins.caught_up hjoins' (hordered j) hbehind hdone hb).imp_right
    intro hbelow
    -- the base of the other task is finalized at its node, or was so earlier
    have hfinal := marked_onOneChain hagreed.sound hfew hjoins'.based.1
      (hagreed.sound j).finalizedHash
    have hle := hjoins'.below
    rw [← hagreed.height j] at hle
    exact hbelow.trans (hfinal.ancestor_of_rank_le (fun _ _ hparent => hparent.height_lt) hle)

end Steps
end Agreement

end AlephNode.Consensus
