import AlephNode.LabelledRuns
import AlephNode.ChasedBlocks
import AlephNode.StartedChains

/-!
# Late joiners

Two nodes with the same block tree that get the same batches in one session. The one that
begins later, at a block that the other one signs on its way, passes to its aggregator what
the other passes after that block, whatever the batches propose.
-/
namespace AlephNode.RunAggregator

variable {Hash S : Type}

/-- The batches that the task has received, oldest first. The most recent event is the
first. -/
def deliveredBatches : List (Event Hash S) → List (List (AlephData Hash))
  | [] => []
  | .batch batch :: events => deliveredBatches events ++ [batch]
  | _ :: events => deliveredBatches events

def pendingItems : AggregatorPosition Hash → List (AlephData Hash)
  | .processing rest => rest
  | _ => []

@[simp] theorem pendingItems_select : pendingItems (.select : AggregatorPosition Hash) = [] := rfl

@[simp] theorem pendingItems_processing (rest : List (AlephData Hash)) :
    pendingItems (.processing rest) = rest := rfl

@[simp] theorem deliveredBatches_batch (batch : List (AlephData Hash))
    (events : List (Event Hash S)) :
    deliveredBatches (.batch batch :: events) = deliveredBatches events ++ [batch] := rfl

variable [DecidableEq Hash]

/-- The hashes that one event passes to `start_aggregation`. -/
def passedBy (client : HeaderStore Hash) (task : RunAggregator Hash S) : Event Hash S → List Hash
  | .data newBlockData => extension client task.lastBlockInSession task.lastFinalized newBlockData
  | _ => []

/-- A move of the task, with a record of what was passed to `start_aggregation`. -/
def RecordedStep (client : HeaderStore Hash) (before : RunAggregator Hash S × List Hash)
    (event : Event Hash S) (after : RunAggregator Hash S × List Hash) : Prop :=
  Step client before.1 event after.1 ∧ after.2 = before.2 ++ passedBy client before.1 event

section Runs

variable {tree : HeaderStore Hash} {base : Hash} {lastBlock : ℕ} {passed : List Hash}
  {task : RunAggregator Hash S} {batches : List (List (AlephData Hash))}
  {events : List (Event Hash S)}

/-- The task has started what was passed on, and has seen the last block only if it has
nothing to pass on any more. -/
structure Pursues (tree : HeaderStore Hash) (base : Hash) (passed : List Hash)
    (task : RunAggregator Hash S) : Prop where
  chain : StartedChain tree base task
  recorded : task.aggregator.startedRmc = passed
  settled : task.lastBlockSeen = true → task.lastBlockInSession ≤ tree.height task.lastFinalized

omit [DecidableEq Hash] in
theorem Pursues.last (h : Pursues tree base passed task) :
    task.lastFinalized = passed.getLast?.getD base := by
  have hlast := h.chain.last
  rw [h.recorded, List.getLast?_cons, Option.some.injEq] at hlast
  exact hlast.symm

theorem Pursues.startAggregation {hash : Hash} (h : Pursues tree base passed task)
    (hparent : tree.IsParent task.lastFinalized hash)
    (hbound : tree.height hash ≤ task.lastBlockInSession) :
    Pursues tree base (passed ++ [hash]) { task with
      aggregator := task.aggregator.startAggregation hash, lastFinalized := hash } := by
  refine ⟨h.chain.startAggregation hparent hbound, ?_, ?_⟩
  · rw [(h.chain.startAggregation_new hparent).1, h.recorded]
  · intro hseen
    exact (h.settled hseen).trans (Nat.le_of_lt hparent.height_lt)

/-- The loop over the headers of an extension starts what it passes on. -/
theorem Pursues.processHeaders (h : Pursues tree base passed task) {headers : List (Header Hash)}
    (hpath : ChainExtension.IsPathFrom tree task.lastFinalized headers)
    (hknown : headers ≠ [] → ∃ lastHeader, tree.header task.lastFinalized = some lastHeader) :
    Pursues tree base (passed ++ passedHeaders task.lastBlockInSession headers)
      (task.processHeaders headers) := by
  induction headers generalizing task passed with
  | nil => exact (List.append_nil passed).symm ▸ h
  | cons header headers ih =>
    obtain ⟨hheader, hparentHash, hrest⟩ := hpath
    obtain ⟨lastHeader, hlast⟩ := hknown (List.cons_ne_nil _ _)
    have hparent : tree.IsParent task.lastFinalized header.hash :=
      ⟨lastHeader, header, hlast, hheader, hparentHash⟩
    have hheight := HeaderStore.height_eq hheader
    rw [passedHeaders_cons]
    unfold RunAggregator.processHeaders
    dsimp only
    by_cases hle : header.number ≤ task.lastBlockInSession
    · have hstarted := h.startAggregation hparent (hheight.symm ▸ hle)
      simp only [if_pos hle]
      split
      · next hge =>
        refine ⟨hstarted.chain.congr rfl rfl rfl rfl, hstarted.recorded, ?_⟩
        intro _
        exact hheight.symm ▸ hge
      · have hmore := ih hstarted hrest (fun _ => ⟨header, hheader⟩)
        rwa [List.append_assoc] at hmore
    · have hge : header.number ≥ task.lastBlockInSession := (Nat.not_le.mp hle).le
      simp only [if_neg hle, if_pos hge, List.append_nil]
      refine ⟨h.chain.congr rfl rfl rfl rfl, h.recorded, ?_⟩
      intro _
      have hnumber := hparent.height_eq_succ
      dsimp only
      omega

theorem Pursues.processData (h : Pursues tree base passed task) (newBlockData : AlephData Hash) :
    Pursues tree base
      (passed ++ extension tree task.lastBlockInSession task.lastFinalized newBlockData)
      (task.processData tree newBlockData) := by
  obtain ⟨hpath, habove⟩ :=
    ChainExtension.chainExtensionStep_path tree task.lastFinalized newBlockData
  apply h.processHeaders hpath
  intro hne
  obtain ⟨header, hmem⟩ := List.exists_mem_of_ne_nil _ hne
  obtain ⟨lastHeader, hlast, _⟩ := habove header hmem
  exact ⟨lastHeader, hlast⟩

/-- What was passed on is what the processed items of the delivered batches pass on. -/
structure Followed (tree : HeaderStore Hash) (base : Hash) (lastBlock : ℕ)
    (events : List (Event Hash S)) (task : RunAggregator Hash S) (passed : List Hash) : Prop where
  session : task.lastBlockInSession = lastBlock
  pursues : Pursues tree base passed task
  items : ∃ processed, (deliveredBatches events).flatten = processed ++ pendingItems task.position ∧
    passed = chase tree lastBlock base processed

theorem followed_start {client : Client Hash} :
    Followed tree client.finalizedHash lastBlock []
      (start client lastBlock : RunAggregator Hash S) [] where
  session := rfl
  pursues := ⟨startedChain_start client lastBlock, rfl, by simp [start]⟩
  items := ⟨[], rfl, rfl⟩

theorem Followed.congr {task' : RunAggregator Hash S} {event : Event Hash S}
    (h : Followed tree base lastBlock events task passed)
    (hchain : StartedChain tree base task')
    (hrmc : task'.aggregator.startedRmc = task.aggregator.startedRmc)
    (hlast : task'.lastFinalized = task.lastFinalized)
    (hsession : task'.lastBlockInSession = task.lastBlockInSession)
    (hseen : task'.lastBlockSeen = task.lastBlockSeen)
    (hbatches : deliveredBatches (event :: events) = deliveredBatches events)
    (hpending : pendingItems task'.position = pendingItems task.position) :
    Followed tree base lastBlock (event :: events) task' passed := by
  obtain ⟨hs, ⟨_, hr, ht⟩, hi⟩ := h
  constructor
  · rw [hsession, hs]
  · refine ⟨hchain, by rw [hrmc, hr], ?_⟩
    rwa [hseen, hsession, hlast]
  · rwa [hbatches, hpending]

theorem followed_step {task' : RunAggregator Hash S} {passed' : List Hash} {event : Event Hash S}
    (h : Followed tree base lastBlock events task passed)
    (hstep : RecordedStep tree (task, passed) event (task', passed')) :
    Followed tree base lastBlock (event :: events) task' passed' := by
  obtain ⟨hstep, hpassed⟩ := hstep
  have hchain := startedChain_step h.pursues.chain (HeaderStore.Subset.refl tree) hstep
  dsimp only at hstep hpassed
  subst hpassed
  cases hstep with
  | batch batch select =>
    simp only [passedBy, List.append_nil]
    obtain ⟨processed, hitems, heq⟩ := h.items
    refine ⟨h.session, ⟨hchain, h.pursues.recorded, h.pursues.settled⟩, processed, ?_, heq⟩
    rw [select, pendingItems_select, List.append_nil] at hitems
    rw [deliveredBatches_batch, List.flatten_append, hitems, pendingItems_processing]
    simp
  | batchIgnored batch select seen =>
    simp only [passedBy, List.append_nil]
    obtain ⟨processed, hitems, heq⟩ := h.items
    refine ⟨h.session, h.pursues, processed ++ batch, ?_, ?_⟩
    · rw [select, pendingItems_select, List.append_nil] at hitems ⊢
      rw [deliveredBatches_batch, List.flatten_append, hitems]
      simp
    · -- the batch comes after the last block
      have hsettled := h.pursues.settled seen
      rw [h.session, h.pursues.last, heq] at hsettled
      rw [chase_append, chase_settled hsettled, List.append_nil, heq]
  | @data newBlockData rest processing =>
    obtain ⟨processed, hitems, heq⟩ := h.items
    obtain ⟨_, hrecorded, hsettled⟩ := h.pursues.processData newBlockData
    refine ⟨?_, ⟨hchain, hrecorded, hsettled⟩, processed ++ [newBlockData], ?_, ?_⟩
    · rw [← h.session]
      have hdata : Step tree task (.data newBlockData) _ := .data processing
      exact (step_frame hdata).1
    · rw [processing, pendingItems_processing] at hitems
      simpa [deliveredBatches] using hitems
    · rw [chase_append, ← heq, ← h.pursues.last, ← h.session]
      simp [passedBy, chase]
  | batchDone processing =>
    simp only [passedBy, List.append_nil]
    exact h.congr hchain rfl rfl rfl rfl rfl (by rw [processing]; rfl)
  | multisigned select poll run =>
    simp only [passedBy, List.append_nil]
    have hpoll := task.aggregator.nextMultisignedHash_started
    rw [poll] at hpoll
    unfold sendJustification at run
    split at run
    · cases run
    · cases run
      exact h.congr hchain hpoll.1 rfl rfl rfl rfl rfl
  | exit listening =>
    simp only [passedBy, List.append_nil]
    refine h.congr hchain rfl rfl rfl rfl rfl ?_
    rcases listening with select | awaiting
    · rw [select]
      rfl
    · rw [awaiting]
      rfl
  | batchesEnded select | hashesEnded select | networkClosed select =>
    simp only [passedBy, List.append_nil]
    exact h.congr hchain rfl rfl rfl rfl rfl (by rw [select]; rfl)
  | rmcCompleted =>
    simp only [passedBy, List.append_nil]
    exact h.congr hchain rfl rfl rfl rfl rfl rfl

/-- No block is passed on twice, and none below the beginning. -/
theorem Followed.nodup (h : Followed tree base lastBlock events task passed) :
    (base :: passed).Nodup := by
  have hchain := h.pursues.chain.chain
  rw [h.pursues.recorded] at hchain
  have hheights : ((base :: passed).map tree.height).IsChain (· < ·) := by
    rw [List.isChain_map]
    exact hchain.imp (fun _ _ hparent => hparent.height_lt)
  have hpairwise := List.isChain_iff_pairwise.mp hheights
  have hnodup := hpairwise.imp (fun hlt => Nat.ne_of_lt hlt)
  exact List.Nodup.of_map _ hnodup

end Runs

section Example
variable {client : HeaderStore Hash} {first : RunAggregator Hash S × List Hash}

end Example
end AlephNode.RunAggregator
