import AlephNode.BlockSignatureAggregator

/-!
# What one aggregator starts

Whatever the batches propose, the hashes that an aggregator starts form a contiguous chain
above the block that was finalized when it began, none beyond the last block of its
session. The last element of the chain is where the next extension begins.
-/
namespace AlephNode.RunAggregator

variable {Hash S : Type} [DecidableEq Hash]

/-- The started hashes are a chain of the block tree above `base`, within the session. -/
structure StartedChain (tree : HeaderStore Hash) (base : Hash) (task : RunAggregator Hash S) :
    Prop where
  chain : (base :: task.aggregator.startedRmc).IsChain tree.IsParent
  last : (base :: task.aggregator.startedRmc).getLast? = some task.lastFinalized
  bounded : ∀ h ∈ task.aggregator.startedRmc, tree.height h ≤ task.lastBlockInSession
  started : ∀ h, h ∈ task.aggregator.startedHashes → h ∈ task.aggregator.startedRmc

section Chain
variable {tree : HeaderStore Hash} {client : HeaderStore Hash} {base : Hash}
  {task task' : RunAggregator Hash S} {hash : Hash} {header : Header Hash}

omit [DecidableEq Hash] in
theorem startedChain_start (client : Client Hash) (lastBlockInSession : ℕ) :
    StartedChain tree client.finalizedHash
      (start client lastBlockInSession : RunAggregator Hash S) where
  chain := by simp [start, BlockSignatureAggregator.new]
  last := by simp [start, BlockSignatureAggregator.new]
  bounded := by simp [start, BlockSignatureAggregator.new]
  started := by simp [start, BlockSignatureAggregator.new]

omit [DecidableEq Hash] in
/-- The chain is about what was started and where the next extension begins. -/
theorem StartedChain.congr (h : StartedChain tree base task)
    (hrmc : task'.aggregator.startedRmc = task.aggregator.startedRmc)
    (hhashes : task'.aggregator.startedHashes = task.aggregator.startedHashes)
    (hlast : task'.lastFinalized = task.lastFinalized)
    (hsession : task'.lastBlockInSession = task.lastBlockInSession) :
    StartedChain tree base task' := by
  obtain ⟨hchain, hend, hbounded, hstarted⟩ := h
  constructor
  · rwa [hrmc]
  · rwa [hrmc, hlast]
  · rwa [hrmc, hsession]
  · rwa [hrmc, hhashes]

omit [DecidableEq Hash] in
/-- What was started lies below where the next extension begins. -/
theorem StartedChain.ancestor_last (h : StartedChain tree base task)
    (hstarted : hash ∈ task.aggregator.startedRmc) :
    AncestorOrEqual tree.IsParent hash task.lastFinalized :=
  ancestor_getLast_of_isChain h.chain (List.mem_cons_of_mem _ hstarted) h.last

/-- A child of where the next extension begins was not started before. -/
theorem StartedChain.startAggregation_new (h : StartedChain tree base task)
    (hparent : tree.IsParent task.lastFinalized hash) :
    (task.aggregator.startAggregation hash).startedRmc = task.aggregator.startedRmc ++ [hash] ∧
      (task.aggregator.startAggregation hash).startedHashes =
        insert hash task.aggregator.startedHashes := by
  have hnew : hash ∉ task.aggregator.startedHashes := by
    intro hmem
    have hle := (h.ancestor_last (h.started hash hmem)).rank_le (fun _ _ hp => hp.height_lt)
    exact absurd hparent.height_lt (Nat.not_lt.mpr hle)
  simp [BlockSignatureAggregator.startAggregation, hnew]

theorem StartedChain.startAggregation (h : StartedChain tree base task)
    (hparent : tree.IsParent task.lastFinalized hash)
    (hbound : tree.height hash ≤ task.lastBlockInSession) :
    StartedChain tree base { task with
      aggregator := task.aggregator.startAggregation hash, lastFinalized := hash } := by
  obtain ⟨hrmc, hhashes⟩ := h.startAggregation_new hparent
  constructor
  · rw [hrmc, ← List.cons_append]
    refine h.chain.append (.singleton hash) ?_
    intro x hx y hy
    rw [h.last, Option.mem_some_iff] at hx
    rw [List.head?_cons, Option.mem_some_iff] at hy
    rw [← hx, ← hy]
    exact hparent
  · rw [hrmc, ← List.cons_append, List.getLast?_concat]
  · rw [hrmc]
    intro h' hmem
    rcases List.mem_append.mp hmem with hmem | hmem
    · exact h.bounded h' hmem
    · rw [List.mem_singleton.mp hmem]
      exact hbound
  · rw [hrmc, hhashes]
    intro h' hmem
    rcases Finset.mem_insert.mp hmem with rfl | hmem
    · simp
    · exact List.mem_append_left _ (h.started h' hmem)

/-- The loop over the headers of an extension prolongs the chain. -/
theorem StartedChain.processHeaders (h : StartedChain tree base task)
    (hsub : client.Subset tree) {headers : List (Header Hash)}
    (hpath : ChainExtension.IsPathFrom client task.lastFinalized headers)
    (hknown : headers ≠ [] → ∃ lastHeader, client.header task.lastFinalized = some lastHeader) :
    StartedChain tree base (task.processHeaders headers) := by
  induction headers generalizing task with
  | nil => exact h
  | cons header headers ih =>
    obtain ⟨hheader, hparentHash, hrest⟩ := hpath
    obtain ⟨lastHeader, hlast⟩ := hknown (List.cons_ne_nil _ _)
    have hparent : tree.IsParent task.lastFinalized header.hash :=
      ⟨lastHeader, header, hsub _ _ hlast, hsub _ _ hheader, hparentHash⟩
    have hheight : tree.height header.hash = header.number :=
      HeaderStore.height_eq (hsub _ _ hheader)
    unfold RunAggregator.processHeaders
    dsimp only
    by_cases hle : header.number ≤ task.lastBlockInSession
    · have hstarted := h.startAggregation hparent (hheight.symm ▸ hle)
      simp only [if_pos hle]
      split
      · exact hstarted.congr rfl rfl rfl rfl
      · exact ih hstarted hrest (fun _ => ⟨header, hheader⟩)
    · -- beyond the last block nothing is started, and the loop is left
      have hge : header.number ≥ task.lastBlockInSession := (Nat.not_le.mp hle).le
      simp only [if_neg hle, if_pos hge]
      exact h.congr rfl rfl rfl rfl

theorem StartedChain.processData (h : StartedChain tree base task) (hsub : client.Subset tree)
    (newBlockData : AlephData Hash) :
    StartedChain tree base (task.processData client newBlockData) := by
  obtain ⟨hpath, habove⟩ :=
    ChainExtension.chainExtensionStep_path client task.lastFinalized newBlockData
  apply h.processHeaders hsub hpath
  intro hne
  obtain ⟨header, hmem⟩ := List.exists_mem_of_ne_nil _ hne
  obtain ⟨lastHeader, hlast, _⟩ := habove header hmem
  exact ⟨lastHeader, hlast⟩

omit [DecidableEq Hash] in
theorem StartedChain.sendJustification {multisignature : SignatureSet S}
    (h : StartedChain tree base task)
    (hrun : task.sendJustification client hash multisignature = .ok task') :
    StartedChain tree base task' := by
  unfold RunAggregator.sendJustification at hrun
  split at hrun
  · cases hrun
  · cases hrun
    exact h.congr rfl rfl rfl rfl

/-- A move of the task keeps the chain, whatever the client knows. -/
theorem startedChain_step {event : Event Hash S} (h : StartedChain tree base task)
    (hsub : client.Subset tree) (hstep : Step client task event task') :
    StartedChain tree base task' := by
  cases hstep with
  | data => exact (h.processData hsub _).congr rfl rfl rfl rfl
  | multisigned _ poll run =>
    have hpoll := task.aggregator.nextMultisignedHash_started
    rw [poll] at hpoll
    refine StartedChain.sendJustification ?_ run
    exact h.congr hpoll.1 hpoll.2 rfl rfl
  | batchIgnored => exact h
  | _ => exact h.congr rfl rfl rfl rfl

omit [DecidableEq Hash] in
theorem StartedChain.ancestor_base (h : StartedChain tree base task)
    (hstarted : hash ∈ task.aggregator.startedRmc) :
    AncestorOrEqual tree.IsParent base hash ∧ tree.height base < tree.height hash := by
  cases hrmc : task.aggregator.startedRmc with
  | nil => simp [hrmc] at hstarted
  | cons first rest =>
    have hchain := h.chain
    rw [hrmc] at hchain hstarted
    refine ⟨ancestor_of_isChain hchain hstarted, ?_⟩
    obtain ⟨hfirst, hrest⟩ := List.isChain_cons_cons.mp hchain
    have hle : tree.height first ≤ tree.height hash := by
      rcases List.mem_cons.mp hstarted with rfl | hmem
      · exact Nat.le_refl _
      · exact (ancestor_of_isChain hrest hmem).rank_le (fun _ _ hp => hp.height_lt)
    exact hfirst.height_lt.trans_le hle

end Chain

section Frames
variable {client : HeaderStore Hash} {task task' : RunAggregator Hash S}

private theorem startAggregation_subset (aggregator : BlockSignatureAggregator Hash S)
    (hash : Hash) : aggregator.startedRmc ⊆ (aggregator.startAggregation hash).startedRmc := by
  unfold BlockSignatureAggregator.startAggregation
  split
  · exact List.Subset.refl _
  · exact List.subset_append_left _ _

private theorem processHeaders_frame (task : RunAggregator Hash S) (headers : List (Header Hash)) :
    (task.processHeaders headers).lastBlockInSession = task.lastBlockInSession ∧
      task.aggregator.startedRmc ⊆ (task.processHeaders headers).aggregator.startedRmc := by
  induction headers generalizing task with
  | nil => exact ⟨rfl, List.Subset.refl _⟩
  | cons header headers ih =>
    unfold processHeaders
    dsimp only
    by_cases hle : header.number ≤ task.lastBlockInSession
    · simp only [if_pos hle]
      have hsubset := startAggregation_subset task.aggregator header.hash
      split
      · exact ⟨rfl, hsubset⟩
      · have hrest := ih { task with
          aggregator := task.aggregator.startAggregation header.hash, lastFinalized := header.hash }
        exact ⟨hrest.1, List.Subset.trans hsubset hrest.2⟩
    · simp only [if_neg hle]
      split
      · exact ⟨rfl, List.Subset.refl _⟩
      · exact ih task

theorem step_frame {event : Event Hash S} (hstep : Step client task event task') :
    task'.lastBlockInSession = task.lastBlockInSession ∧
      task.aggregator.startedRmc ⊆ task'.aggregator.startedRmc := by
  cases hstep with
  | data => exact processHeaders_frame task _
  | multisigned _ poll run =>
    have hpoll := task.aggregator.nextMultisignedHash_started
    rw [poll] at hpoll
    unfold sendJustification at run
    split at run
    · cases run
    · cases run
      exact ⟨rfl, hpoll.1.symm ▸ List.Subset.refl _⟩
  | _ => exact ⟨rfl, List.Subset.refl _⟩

end Frames
end AlephNode.RunAggregator
