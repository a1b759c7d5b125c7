import AlephNode.LabelledRuns
import AlephNode.ChasedBlocks
import AlephNode.StartedChains

/-!
# The calls of `run_aggregator`

What the task calls on its aggregator while it processes batches: `start_aggregation` for
one block after the other, and `notify_last_hash`. The batches may propose anything, and
the client may learn about new blocks at any time.
-/
namespace AlephNode.RunAggregator

variable {Hash S : Type} [DecidableEq Hash]

def callsOf (client : HeaderStore Hash) (task : RunAggregator Hash S) :
    Event Hash S → List (AggregatorCall Hash)
  | .data newBlockData => headerCalls task.lastBlockInSession
      (ChainExtension.chainExtensionStep client task.lastFinalized newBlockData)
  | _ => []

/-- A move of the task, with a record of the calls so far. The client knows a part of the
block tree at that moment. -/
def CallingStep (tree : HeaderStore Hash)
    (before : RunAggregator Hash S × List (AggregatorCall Hash)) (event : Event Hash S)
    (after : RunAggregator Hash S × List (AggregatorCall Hash)) : Prop :=
  ∃ client : HeaderStore Hash, client.Subset tree ∧ Step client before.1 event after.1 ∧
    after.2 = before.2 ++ callsOf client before.1 event

section Calls

private theorem startAggregation_lastHashPlaced (aggregator : BlockSignatureAggregator Hash S)
    (hash : Hash) :
    (aggregator.startAggregation hash).lastHashPlaced = aggregator.lastHashPlaced := by
  unfold BlockSignatureAggregator.startAggregation
  split <;> rfl

private theorem nextMultisignedHash_lastHashPlaced
    (aggregator : BlockSignatureAggregator Hash S) :
    aggregator.nextMultisignedHash.1.lastHashPlaced = aggregator.lastHashPlaced := by
  unfold BlockSignatureAggregator.nextMultisignedHash
  split
  · split <;> rfl
  · rfl

variable {tree client : HeaderStore Hash} {base hash : Hash} {task task' : RunAggregator Hash S}
  {calls : List (AggregatorCall Hash)} {events : List (Event Hash S)}

/-- The calls so far, as far as later calls depend on them. After the first notification
there is nothing left to start. -/
structure Called (tree : HeaderStore Hash) (base : Hash) (calls : List (AggregatorCall Hash))
    (task : RunAggregator Hash S) : Prop where
  chain : StartedChain tree base task
  recorded : task.aggregator.startedRmc = startedBy calls
  placed : task.aggregator.lastHashPlaced = true ↔ .notifyLastHash ∈ calls
  settled : .notifyLastHash ∈ calls → task.lastBlockInSession ≤ tree.height task.lastFinalized
  notified : ∀ before after, calls = before ++ .notifyLastHash :: after → startedBy after = [] ∧
    (task.lastBlockInSession ≤ tree.height base ∨
      ∃ hash, (startedBy before).getLast? = some hash ∧
        tree.height hash = task.lastBlockInSession)

omit [DecidableEq Hash] in
theorem Called.congr (h : Called tree base calls task) (hchain : StartedChain tree base task')
    (hrmc : task'.aggregator.startedRmc = task.aggregator.startedRmc)
    (hplaced : task'.aggregator.lastHashPlaced = task.aggregator.lastHashPlaced)
    (hlast : task'.lastFinalized = task.lastFinalized)
    (hsession : task'.lastBlockInSession = task.lastBlockInSession) :
    Called tree base calls task' := by
  obtain ⟨_, hrecorded, hnotify, hsettled, hnotified⟩ := h
  constructor
  · exact hchain
  · rw [hrmc, hrecorded]
  · rw [hplaced, hnotify]
  · rwa [hsession, hlast]
  · rwa [hsession]

/-- A child within the session is started only before the first notification. -/
theorem Called.startAggregation (h : Called tree base calls task)
    (hparent : tree.IsParent task.lastFinalized hash)
    (hbound : tree.height hash ≤ task.lastBlockInSession) :
    Called tree base (calls ++ [.startAggregation hash]) { task with
      aggregator := task.aggregator.startAggregation hash, lastFinalized := hash } := by
  have hbefore : .notifyLastHash ∉ calls := by
    intro hmem
    have hsettled := h.settled hmem
    have hlt := hparent.height_lt
    omega
  have hnotify : .notifyLastHash ∉ calls ++ [.startAggregation hash] := by simpa using hbefore
  constructor
  · exact h.chain.startAggregation hparent hbound
  · rw [(h.chain.startAggregation_new hparent).1, h.recorded]
    simp
  · rw [startAggregation_lastHashPlaced, h.placed]
    simp
  · intro hmem
    exact absurd hmem hnotify
  · intro before after hsplit
    rw [hsplit] at hnotify
    simp at hnotify

omit [DecidableEq Hash] in
/-- The last block is announced when the end of the started chain has reached it. -/
theorem Called.notifyLastHash (h : Called tree base calls task)
    (hreached : task.lastBlockInSession ≤ tree.height task.lastFinalized) :
    Called tree base (calls ++ [.notifyLastHash]) { task with
      aggregator := task.aggregator.notifyLastHash, lastBlockSeen := true } := by
  constructor
  · exact h.chain.congr rfl rfl rfl rfl
  · rw [startedBy_append, startedBy_notify, startedBy_nil, List.append_nil]
    exact h.recorded
  · simp [BlockSignatureAggregator.notifyLastHash]
  · intro _
    exact hreached
  · intro before after hsplit
    cases after using List.reverseRecOn with
    | nil =>
      obtain ⟨hbefore, _⟩ := List.append_inj' hsplit rfl
      subst hbefore
      refine ⟨rfl, ?_⟩
      have hlast := h.chain.last
      rw [h.recorded, List.getLast?_cons, Option.some.injEq] at hlast
      cases hend : (startedBy calls).getLast? with
      | none =>
        rw [hend, Option.getD_none] at hlast
        exact .inl (hlast ▸ hreached)
      | some hash =>
        rw [hend, Option.getD_some] at hlast
        have hmem : hash ∈ task.aggregator.startedRmc := by
          rw [h.recorded]
          exact List.mem_of_getLast? hend
        have hbound := h.chain.bounded hash hmem
        exact .inr ⟨hash, rfl, Nat.le_antisymm hbound (hlast ▸ hreached)⟩
    | append_singleton after call =>
      have hassoc : calls ++ [.notifyLastHash] =
          (before ++ .notifyLastHash :: after) ++ [call] := by simpa using hsplit
      obtain ⟨hearlier, hcall⟩ := List.append_inj' hassoc rfl
      obtain ⟨hnone, hnotified⟩ := h.notified before after hearlier
      rw [List.singleton_inj] at hcall
      refine ⟨?_, hnotified⟩
      rw [startedBy_append, hnone, ← hcall]
      rfl

/-- The loop over the headers of an extension keeps the record. -/
theorem Called.processHeaders (h : Called tree base calls task) (hsub : client.Subset tree)
    {headers : List (Header Hash)}
    (hpath : ChainExtension.IsPathFrom client task.lastFinalized headers)
    (hknown : headers ≠ [] → ∃ lastHeader, client.header task.lastFinalized = some lastHeader) :
    Called tree base (calls ++ headerCalls task.lastBlockInSession headers)
      (task.processHeaders headers) := by
  induction headers generalizing task calls with
  | nil => exact (List.append_nil calls).symm ▸ h
  | cons header headers ih =>
    obtain ⟨hheader, hparentHash, hrest⟩ := hpath
    obtain ⟨lastHeader, hlast⟩ := hknown (List.cons_ne_nil _ _)
    have hparent : tree.IsParent task.lastFinalized header.hash :=
      ⟨lastHeader, header, hsub _ _ hlast, hsub _ _ hheader, hparentHash⟩
    have hheight : tree.height header.hash = header.number :=
      HeaderStore.height_eq (hsub _ _ hheader)
    unfold RunAggregator.processHeaders headerCalls
    dsimp only
    by_cases hle : header.number ≤ task.lastBlockInSession
    · have hstarted := h.startAggregation hparent (hheight.symm ▸ hle)
      simp only [if_pos hle]
      split
      · next hge =>
        have hnotified := hstarted.notifyLastHash (hheight.symm ▸ hge)
        rwa [List.append_assoc] at hnotified
      · have hmore := ih hstarted hrest (fun _ => ⟨header, hheader⟩)
        rwa [List.append_assoc] at hmore
    · -- the header lies beyond the last block, which the chain has reached before
      have hge : header.number ≥ task.lastBlockInSession := (Nat.not_le.mp hle).le
      simp only [if_neg hle, if_pos hge, List.nil_append]
      apply h.notifyLastHash
      have hnumber := hparent.height_eq_succ
      omega

theorem Called.processData (h : Called tree base calls task) (hsub : client.Subset tree)
    (newBlockData : AlephData Hash) :
    Called tree base (calls ++ callsOf client task (.data newBlockData))
      (task.processData client newBlockData) := by
  obtain ⟨hpath, habove⟩ :=
    ChainExtension.chainExtensionStep_path client task.lastFinalized newBlockData
  apply h.processHeaders hsub hpath
  intro hne
  obtain ⟨header, hmem⟩ := List.exists_mem_of_ne_nil _ hne
  obtain ⟨lastHeader, hlast, _⟩ := habove header hmem
  exact ⟨lastHeader, hlast⟩

omit [DecidableEq Hash] in
theorem called_start (client : Client Hash) (lastBlock : ℕ) :
    Called tree client.finalizedHash [] (start client lastBlock : RunAggregator Hash S) where
  chain := startedChain_start client lastBlock
  recorded := rfl
  placed := by simp [start, BlockSignatureAggregator.new]
  settled := by simp
  notified := by simp

theorem called_step {event : Event Hash S} {calls' : List (AggregatorCall Hash)}
    (h : Called tree base calls task)
    (hstep : CallingStep tree (task, calls) event (task', calls')) :
    Called tree base calls' task' := by
  obtain ⟨client, hsub, hstep, hcalls⟩ := hstep
  have hchain := startedChain_step h.chain hsub hstep
  dsimp only at hstep hcalls
  subst hcalls
  cases hstep with
  | @data newBlockData =>
    exact (h.processData hsub newBlockData).congr hchain rfl rfl rfl rfl
  | multisigned select poll run =>
    have hpoll := task.aggregator.nextMultisignedHash_started
    have hplaced := nextMultisignedHash_lastHashPlaced task.aggregator
    rw [poll] at hpoll hplaced
    simp only [callsOf, List.append_nil]
    unfold sendJustification at run
    split at run
    · cases run
    · cases run
      exact h.congr hchain hpoll.1 hplaced rfl rfl
  | batchIgnored =>
    simp only [callsOf, List.append_nil]
    exact h
  | _ =>
    simp only [callsOf, List.append_nil]
    exact h.congr hchain rfl rfl rfl rfl

theorem lastBlockInSession_of_run {lastBlock : ℕ} {client : Client Hash}
    (run : Run (CallingStep tree) ((start client lastBlock : RunAggregator Hash S), []) events
      (task, calls)) : task.lastBlockInSession = lastBlock := by
  have hsession := run.invariant (fun state => state.1.lastBlockInSession = lastBlock) rfl
    (fun _ _ _ hinv hstep => by
      obtain ⟨_, _, hstep, _⟩ := hstep
      rw [(step_frame hstep).1, hinv])
  exact hsession

/-- Whatever batches come, the hashes passed to `start_aggregation` form a contiguous chain
above the block finalized at the beginning, none beyond the session and none twice. Once
the last block is announced nothing is started any more, and it is announced only when the
chain, or the block at the beginning, has reached it. -/
theorem passed_hashes_contiguous {lastBlock : ℕ} {client : Client Hash}
    (run : Run (CallingStep tree) ((start client lastBlock : RunAggregator Hash S), []) events
      (task, calls)) :
    task.aggregator.startedRmc = startedBy calls ∧
      (task.aggregator.lastHashPlaced = true ↔ .notifyLastHash ∈ calls) ∧
      (client.finalizedHash :: startedBy calls).IsChain tree.IsParent ∧
      (∀ hash ∈ startedBy calls, tree.height hash ≤ lastBlock) ∧
      (startedBy calls).Nodup ∧
      ∀ before after, calls = before ++ .notifyLastHash :: after → startedBy after = [] ∧
        (lastBlock ≤ tree.height client.finalizedHash ∨
          ∃ hash, (startedBy before).getLast? = some hash ∧ tree.height hash = lastBlock) := by
  have hcalled : Called tree client.finalizedHash calls task :=
    run.invariant (fun state : RunAggregator Hash S × List (AggregatorCall Hash) =>
      Called tree client.finalizedHash state.2 state.1) (called_start client lastBlock)
      (fun _ _ _ hinv hstep => called_step hinv hstep)
  have hsession := lastBlockInSession_of_run run
  obtain ⟨hchain, hrecorded, hplaced, _, hnotified⟩ := hcalled
  obtain ⟨hparents, _, hbounded, _⟩ := hchain
  rw [hrecorded] at hparents hbounded
  rw [hsession] at hbounded hnotified
  refine ⟨hrecorded, hplaced, hparents, hbounded, ?_, hnotified⟩
  -- the heights grow along the chain
  have hheights : ((startedBy calls).map tree.height).IsChain (· < ·) := by
    rw [List.isChain_map]
    exact hparents.tail.imp (fun _ _ hparent => hparent.height_lt)
  have hpairwise := List.isChain_iff_pairwise.mp hheights
  exact List.Nodup.of_map _ (hpairwise.imp (fun hlt => Nat.ne_of_lt hlt))

private theorem callingStep_data {newBlockData : AlephData Hash} {rest : List (AlephData Hash)}
    (hposition : task.position = .processing (newBlockData :: rest)) :
    CallingStep tree (task, calls) (.data newBlockData)
      ({ task.processData tree newBlockData with position := .processing rest },
        calls ++ callsOf tree task (.data newBlockData)) :=
  ⟨tree, HeaderStore.Subset.refl tree, .data hposition, rfl⟩

end Calls

/-- A batch that strays off the chain, and goes beyond the end of the session. -/
theorem passed_hashes_contiguous_line :
    (1 :: [2, 3, 4]).IsChain (Client.ofLine 5 0).IsParent ∧ [2, 3, 4].Nodup := by
  let client := Client.ofLine 5 0
  let first : RunAggregator ℕ ℕ := { start client 3 with position := .processing [⟨9, 9⟩, ⟨6, 5⟩] }
  let second : RunAggregator ℕ ℕ :=
    { first.processData client.toHeaderStore ⟨9, 9⟩ with position := .processing [⟨6, 5⟩] }
  have hbatch : CallingStep client.toHeaderStore ((start client 3 : RunAggregator ℕ ℕ), [])
      (.batch [⟨9, 9⟩, ⟨6, 5⟩]) (first, []) :=
    ⟨client.toHeaderStore, HeaderStore.Subset.refl _, .batch _ rfl rfl, rfl⟩
  have hstray : callsOf client.toHeaderStore first (.data ⟨9, 9⟩) = [] := by decide
  have hcalls : callsOf client.toHeaderStore second (.data ⟨6, 5⟩) =
      [.startAggregation 2, .startAggregation 3, .startAggregation 4, .notifyLastHash] := by
    decide
  have hfirst := (Run.refl.tail hbatch).tail (callingStep_data rfl)
  have hsecond := hfirst.tail (callingStep_data rfl)
  rw [hcalls, hstray] at hsecond
  obtain ⟨_, _, hchain, _, hnodup, _⟩ := passed_hashes_contiguous hsecond
  exact ⟨hchain, hnodup⟩

end AlephNode.RunAggregator
