import AlephNode.SessionTasks

/-!
# The shutdown of a session

The task that ends the others follows the order: member, aggregator, forwarder. The aggregator
keeps its ends until it is told to exit, and the forwarder keeps the receivers of commands
until their senders are gone or it is told to exit. So nobody who still runs finds a channel
closed that it expects to be open.
-/
namespace AlephNode

namespace RunAggregator
variable {Hash S : Type} {client client' : HeaderStore Hash} {task task' : RunAggregator Hash S}

def Known (client : HeaderStore Hash) (task : RunAggregator Hash S) : Prop :=
  ∀ hash ∈ task.aggregator.hashQueue, ∃ header, client.header hash = some header

theorem Known.grown (h : Known client task) (hgrows : client.Subset client') :
    Known client' task := by
  intro hash hmem
  obtain ⟨header, hheader⟩ := h hash hmem
  exact ⟨header, hgrows _ _ hheader⟩

variable [DecidableEq Hash]

theorem Known.processHeaders (h : Known client task) {headers : List (Header Hash)}
    (hknown : ∀ header ∈ headers, client.header header.hash = some header) :
    Known client (task.processHeaders headers) := by
  induction headers generalizing task with
  | nil => exact h
  | cons header headers ih =>
    obtain ⟨hheader, hrest⟩ := List.forall_mem_cons.mp hknown
    have hstarted : Known client { task with
        aggregator := task.aggregator.startAggregation header.hash
        lastFinalized := header.hash } := by
      intro hash hmem
      dsimp only at hmem
      unfold BlockSignatureAggregator.startAggregation at hmem
      split at hmem
      · exact h hash hmem
      · obtain hmem | hmem := List.mem_append.mp hmem
        · exact h hash hmem
        · rw [List.mem_singleton.mp hmem]
          exact ⟨header, hheader⟩
    unfold RunAggregator.processHeaders
    dsimp only
    by_cases hle : header.number ≤ task.lastBlockInSession
    · simp only [if_pos hle]
      split
      · exact hstarted
      · exact ih hstarted hrest
    · simp only [if_neg hle]
      split
      · exact h
      · exact ih h hrest

theorem hashQueue_nextMultisignedHash (aggregator : BlockSignatureAggregator Hash S) :
    aggregator.nextMultisignedHash.1.hashQueue ⊆ aggregator.hashQueue := by
  unfold BlockSignatureAggregator.nextMultisignedHash
  split
  · next hqueue =>
    split
    · rw [hqueue]
      exact List.subset_cons_self _ _
    · exact List.Subset.refl _
  · exact List.Subset.refl _

theorem known_step {event : Event Hash S} (h : Known client task)
    (hstep : Step client task event task') : Known client task' := by
  cases hstep with
  | @data newBlockData =>
    have hpath := (ChainExtension.chainExtensionStep_path client task.lastFinalized newBlockData).1
    exact Known.processHeaders h (fun _ hmem => hpath.known hmem)
  | @multisigned _ aggregator hash multisignature _ poll run =>
    intro hash' hmem
    have hqueue := hashQueue_nextMultisignedHash task.aggregator
    unfold sendJustification at run
    split at run
    · cases run
    · cases run
      rw [poll] at hqueue
      exact h hash' (hqueue hmem)
  | batchIgnored => exact h
  | _ => exact h

/-- The task ends when it is told to exit, and then it does not move. -/
theorem position_step {event : Event Hash S} (hstep : Step client task event task') :
    task.position ≠ .ended ∧ (task'.position = .ended ↔ event = .exit) := by
  cases hstep with
  | data processing => simp [processing]
  | batchDone processing => simp [processing]
  | batch _ select | batchIgnored _ select | batchesEnded select | rmcCompleted _ _ select
  | hashesEnded select | networkClosed select => simp [select]
  | multisigned select poll run =>
    unfold sendJustification at run
    split at run
    · cases run
    · cases run
      simp [select]
  | exit listening =>
    obtain select | awaiting := listening
    · simp [select]
    · simp [awaiting]

end RunAggregator

namespace AuthorityTasks
variable {PeerId Hash S Aleph Rmc : Type} {s s' : AuthorityTasks PeerId Hash S Aleph Rmc}
  {event : Event PeerId Hash S Aleph Rmc}

/-- What the tasks own as long as they run, and when the forwarder gives up its receivers of
commands. -/
structure Owned (s : AuthorityTasks PeerId Hash S Aleph Rmc) : Prop where
  network : s.commands.receiverAlive = true
  member : s.member.network = true →
    s.member.running = true ∧ s.split.alephCmd.senderAlive = true
  aggregator : ∃ task, s.aggregator = .ok task ∧ task.Known s.client
  aggregatorRuns : s.running .aggregator = true → s.orderedBatches.receiverAlive = true ∧
    s.split.rmcCmd.senderAlive = true ∧ s.messagesForRmc.receiverAlive = true
  aggregatorEnded : s.running .aggregator = false → s.exits .aggregator ≠ .pending
  alephCmd : s.split.alephCmd.receiverAlive = false →
    s.split.alephCmd.senderAlive = false ∨ s.exits .forwarder ≠ .pending
  rmcCmd : s.split.rmcCmd.receiverAlive = false →
    s.split.rmcCmd.senderAlive = false ∨ s.exits .forwarder ≠ .pending

theorem running_aggregator {task : RunAggregator Hash S} (h : s.aggregator = .ok task) :
    s.running .aggregator = true ↔ task.position ≠ .ended := by
  unfold running
  rw [h]
  cases hposition : task.position <;> simp [hposition]

/-- The consensus network goes on, and the task that ends the others is not dropped. -/
def Undropped (_ : AuthorityTasks PeerId Hash S Aleph Rmc) :
    Event PeerId Hash S Aleph Rmc → Prop
  | .networkEnded => False
  | .exitTaskDropped => False
  | _ => True

theorem owned_outer (h : Owned s) (hstep : OuterStep s event s') : Owned s' := by
  obtain ⟨hnetwork, hmember, haggregator, hruns, hended, halephCmd, hrmcCmd⟩ := h
  cases hstep with
  | memberSends =>
    refine ⟨hnetwork, hmember, haggregator, hruns, hended, ?_, hrmcCmd⟩
    intro hdropped
    rw [SplitNetwork.alephSend, Mpsc.trySend_receiverAlive] at hdropped
    exact halephCmd hdropped
  | memberOrders batch =>
    refine ⟨hnetwork, hmember, haggregator, ?_, hended, halephCmd, hrmcCmd⟩
    rw [Mpsc.trySend_receiverAlive]
    exact hruns
  | memberNetworkDropped =>
    exact ⟨hnetwork, nofun, haggregator, hruns, hended, fun _ => .inl rfl, hrmcCmd⟩
  | memberEnded =>
    exact ⟨hnetwork, nofun, haggregator, hruns, hended, fun _ => .inl rfl, hrmcCmd⟩
  | _ => exact ⟨hnetwork, hmember, haggregator, hruns, hended, halephCmd, hrmcCmd⟩

/-- While the aggregator runs, the forwarder receives its commands. -/
theorem Owned.rmcCmd_alive (h : Owned s)
    (horder : s.exits .forwarder ≠ .pending → s.running .aggregator = false)
    (hruns : s.running .aggregator = true) : s.split.rmcCmd.receiverAlive = true := by
  rw [← Bool.not_eq_false]
  intro hdropped
  obtain hsender | htold := h.rmcCmd hdropped
  · rw [(h.aggregatorRuns hruns).2.1] at hsender
    cases hsender
  · rw [horder htold] at hruns
    cases hruns

section Aggregator
variable [DecidableEq Hash]

private theorem number_known {client : HeaderStore Hash} {task : RunAggregator Hash S}
    {aggregator : BlockSignatureAggregator Hash S} {hash : Hash} {multisignature : SignatureSet S}
    (h : task.Known client)
    (hpoll : task.aggregator.nextMultisignedHash = (aggregator, .returned hash multisignature)) :
    client.number hash ≠ none := by
  have hmem : hash ∈ task.aggregator.hashQueue := by
    unfold BlockSignatureAggregator.nextMultisignedHash at hpoll
    split at hpoll
    · next first rest hqueue =>
      split at hpoll
      · cases hpoll
        simp [hqueue]
      · cases hpoll
    · split at hpoll <;> cases hpoll
  obtain ⟨header, hheader⟩ := h hash hmem
  simp [HeaderStore.number, hheader]

private theorem owned_moved {task task' : RunAggregator Hash S}
    {event : RunAggregator.Event Hash S} (h : Owned s) (hruns : s.aggregator = .ok task)
    (hheard : s.Heard event) (hstep : RunAggregator.Step s.client task event task') :
    Owned (s.aggregatorMoved task' event) := by
  obtain ⟨hlisten, hends⟩ := RunAggregator.position_step hstep
  have hrunning := h.aggregatorRuns ((running_aggregator hruns).mpr hlisten)
  have hknown : task'.Known s.client := by
    obtain ⟨_, htask, hknown⟩ := h.aggregator
    rw [hruns, Except.ok.injEq] at htask
    exact RunAggregator.known_step (htask ▸ hknown) hstep
  by_cases hexit : event = .exit
  · subst hexit
    have hended : ¬(s.endAggregator (.ok task')).running .aggregator = true := by
      rw [running_aggregator rfl, not_not]
      exact hends.mpr rfl
    exact ⟨h.network, h.member, ⟨task', rfl, hknown⟩, fun hr => absurd hr hended,
      fun _ => hheard, h.alephCmd, fun _ => .inl rfl⟩
  · have hgoes : task'.position ≠ .ended := fun he => hexit (hends.mp he)
    have hmoved : ∀ after : AuthorityTasks PeerId Hash S Aleph Rmc,
        after.aggregator = .ok task' → after.running .aggregator ≠ false := by
      intro after hafter
      rw [ne_eq, Bool.not_eq_false]
      exact (running_aggregator hafter).mpr hgoes
    cases event with
    | exit => exact absurd rfl hexit
    | _ =>
      exact ⟨h.network, h.member, ⟨task', rfl, hknown⟩, fun _ => hrunning,
        fun hr => absurd hr (hmoved _ rfl), h.alephCmd, h.rmcCmd⟩

theorem owned_aggregator (h : Owned s)
    (horder : s.exits .forwarder ≠ .pending → s.running .aggregator = false)
    (hstep : AggregatorStep s event s') : Owned s' := by
  cases hstep with
  | moved runs heard step => exact owned_moved h runs heard step
  | numberUnwrapped runs _ poll run =>
    obtain ⟨_, htask, hknown⟩ := h.aggregator
    rw [runs, Except.ok.injEq] at htask
    unfold RunAggregator.sendJustification at run
    split at run
    · next hnone => exact absurd hnone (number_known (htask ▸ hknown) poll)
    · cases run
  | sentToNetwork runs select =>
    have hruns : s.running .aggregator = true := (running_aggregator runs).mpr (by simp [select])
    unfold sendToNetwork
    rw [SplitNetwork.rmcSend_alive (h.rmcCmd_alive horder hruns)]
    refine ⟨h.network, h.member, h.aggregator, h.aggregatorRuns, h.aggregatorEnded, h.alephCmd, ?_⟩
    dsimp only
    rw [Mpsc.trySend_receiverAlive]
    exact h.rmcCmd
  | sentToRmc runs select =>
    have hruns : s.running .aggregator = true := (running_aggregator runs).mpr (by simp [select])
    unfold sendToRmc
    rw [Mpsc.unboundedSend_alive (h.aggregatorRuns hruns).2.2]
    refine ⟨h.network, h.member, h.aggregator, ?_, h.aggregatorEnded, h.alephCmd, h.rmcCmd⟩
    dsimp only
    rw [Mpsc.trySend_receiverAlive]
    exact h.aggregatorRuns
  | rmcSends | rmcReceives =>
    exact ⟨h.network, h.member, h.aggregator, h.aggregatorRuns, h.aggregatorEnded, h.alephCmd,
      h.rmcCmd⟩

end Aggregator

theorem owned_forwarder (h : Owned s) (hstep : ForwarderStep s event s') : Owned s' := by
  obtain ⟨hnetwork, hmember, haggregator, hruns, hended, halephCmd, hrmcCmd⟩ := h
  cases hstep with
  | @dataForwarded data =>
    cases data <;> exact ⟨hnetwork, hmember, haggregator, hruns, hended, halephCmd, hrmcCmd⟩
  | dataEnded => exact ⟨hnetwork, hmember, haggregator, hruns, hended, halephCmd, hrmcCmd⟩
  | alephCmdForwarded | rmcCmdForwarded =>
    refine ⟨?_, hmember, haggregator, hruns, hended, halephCmd, hrmcCmd⟩
    dsimp only
    rw [Channel.sendAll_receiverAlive]
    exact hnetwork
  | alephCmdEnded ended =>
    obtain ⟨_, hsender⟩ := ended.resolve_right (by simp [hnetwork])
    exact ⟨hnetwork, hmember, haggregator, hruns, hended, fun _ => .inl hsender, hrmcCmd⟩
  | rmcCmdEnded ended =>
    obtain ⟨_, hsender⟩ := ended.resolve_right (by simp [hnetwork])
    exact ⟨hnetwork, hmember, haggregator, hruns, hended, halephCmd, fun _ => .inl hsender⟩
  | forwarderEnded told =>
    exact ⟨hnetwork, hmember, haggregator, hruns, hended, fun _ => .inr told, fun _ => .inr told⟩

theorem owned_exit (h : Owned s) (hundropped : Undropped s event) (hstep : ExitStep s event s') :
    Owned s' := by
  obtain ⟨hnetwork, hmember, haggregator, hruns, hended, halephCmd, hrmcCmd⟩ := h
  cases hstep with
  | networkEnded | exitTaskDropped => exact hundropped.elim
  | clientGrown grows =>
    obtain ⟨task, htask, hknown⟩ := haggregator
    exact ⟨hnetwork, hmember, ⟨task, htask, hknown.grown grows⟩, hruns, hended, halephCmd, hrmcCmd⟩
  | @exitSignalled t =>
    have htold : ∀ u, s.exits u ≠ .pending → Function.update s.exits t .sent u ≠ .pending := by
      intro u hu
      by_cases he : u = t
      · simp [he]
      · rw [Function.update_of_ne he]
        exact hu
    exact ⟨hnetwork, hmember, haggregator, hruns, fun hr => htold _ (hended hr),
      fun hr => (halephCmd hr).imp id (htold _), fun hr => (hrmcCmd hr).imp id (htold _)⟩
  | _ => exact ⟨hnetwork, hmember, haggregator, hruns, hended, halephCmd, hrmcCmd⟩

theorem stopped_of (hstops : ∀ t, s'.running t = true → s.running t = true)
    (hexits : s'.exits = s.exits) (hawaiting : s'.awaiting = s.awaiting)
    (hremaining : s'.remaining = s.remaining) : s.shutdown.Step .stopped s'.shutdown := by
  unfold shutdown
  rw [hexits, hawaiting, hremaining]
  exact Shutdown.Step.stopped (s := s.shutdown) hstops

private theorem stopped_outer (hstep : OuterStep s event s') :
    s.shutdown.Step .stopped s'.shutdown := by
  cases hstep with
  | memberEnded | dataStoreEnded | refresherEnded =>
    refine stopped_of ?_ rfl rfl rfl
    intro t
    cases t <;> first | exact id | exact nofun
  | _ =>
    refine stopped_of ?_ rfl rfl rfl
    intro t
    cases t <;> exact id

private theorem stopped_forwarder (hstep : ForwarderStep s event s') :
    s.shutdown.Step .stopped s'.shutdown := by
  have hforwarder : (s'.forwarder.forwardData = true → s.forwarder.forwardData = true) ∧
      (s'.forwarder.forwardAlephCmd = true → s.forwarder.forwardAlephCmd = true) ∧
      (s'.forwarder.forwardRmcCmd = true → s.forwarder.forwardRmcCmd = true) := by
    cases hstep with
    | dataEnded => exact ⟨nofun, id, id⟩
    | alephCmdEnded => exact ⟨id, nofun, id⟩
    | rmcCmdEnded => exact ⟨id, id, nofun⟩
    | forwarderEnded => exact ⟨nofun, nofun, nofun⟩
    | _ => exact ⟨id, id, id⟩
  have hstops : s'.running .forwarder = true → s.running .forwarder = true := by
    simp only [running, Bool.or_eq_true]
    tauto
  cases hstep <;>
    exact stopped_of (fun t => by cases t <;> first | exact hstops | exact id) rfl rfl rfl

private theorem stopped_of_running (hruns : s.running .aggregator = true)
    (hmember : s'.member = s.member) (hforwarder : s'.forwarder = s.forwarder)
    (hrefresher : s'.refresher = s.refresher) (hdataStore : s'.dataStore = s.dataStore)
    (hexits : s'.exits = s.exits) (hawaiting : s'.awaiting = s.awaiting)
    (hremaining : s'.remaining = s.remaining) : s.shutdown.Step .stopped s'.shutdown := by
  refine stopped_of ?_ hexits hawaiting hremaining
  intro t ht
  cases t with
  | aggregator => exact hruns
  | _ => simpa only [running, hmember, hforwarder, hrefresher, hdataStore] using ht

private theorem stopped_aggregator [DecidableEq Hash] (hstep : AggregatorStep s event s') :
    s.shutdown.Step .stopped s'.shutdown := by
  cases hstep with
  | @moved task event task' runs heard step =>
    have hruns := (running_aggregator runs).mpr (RunAggregator.position_step step).1
    cases event <;> exact stopped_of_running hruns rfl rfl rfl rfl rfl rfl rfl
  | numberUnwrapped runs select =>
    have hruns := (running_aggregator runs).mpr (by simp [select])
    exact stopped_of_running hruns rfl rfl rfl rfl rfl rfl rfl
  | sentToNetwork runs select =>
    have hruns := (running_aggregator runs).mpr (by simp [select])
    unfold sendToNetwork
    split <;> exact stopped_of_running hruns rfl rfl rfl rfl rfl rfl rfl
  | sentToRmc runs select =>
    have hruns := (running_aggregator runs).mpr (by simp [select])
    unfold sendToRmc
    split <;> exact stopped_of_running hruns rfl rfl rfl rfl rfl rfl rfl
  | rmcSends | rmcReceives => exact stopped_of (fun t => by cases t <;> exact id) rfl rfl rfl

theorem shutdown_step [DecidableEq Hash] (hundropped : Undropped s event)
    (hstep : Step s event s') : ∃ move, s.shutdown.Step move s'.shutdown := by
  cases hstep with
  | outer step => exact ⟨_, stopped_outer step⟩
  | aggregator step => exact ⟨_, stopped_aggregator step⟩
  | forwarder step => exact ⟨_, stopped_forwarder step⟩
  | exit step =>
    cases step with
    | networkEnded | exitTaskDropped => exact hundropped.elim
    | exitSignalled _ free next =>
      exact ⟨_, Shutdown.Step.signalled (s := s.shutdown) free next⟩
    | exitAwaited waits ended => exact ⟨_, Shutdown.Step.awaited (s := s.shutdown) waits ended⟩
    | _ => exact ⟨_, stopped_of (fun t => by cases t <;> exact id) rfl rfl rfl⟩

section Runs
variable [DecidableEq Hash] {client : Client Hash} {sessionId : SessionId} {lastBlock : ℕ}
  {commands : List (SessionCommand PeerId S (NetworkData Aleph Rmc))}
  {dataFromNetwork : Mpsc (NetworkData Aleph Rmc)}
  {events : List (Event PeerId Hash S Aleph Rmc)}

/-- The order of the exit signals together with the ownership of the channels. -/
structure Orderly (s : AuthorityTasks PeerId Hash S Aleph Rmc) : Prop where
  order : s.shutdown.InOrder exitOrder
  owned : Owned s

omit [DecidableEq Hash] in
theorem Orderly.ended_before {before after : List SessionTask} {t u : SessionTask} (h : Orderly s)
    (horder : exitOrder = before ++ t :: after) (htold : s.exits t ≠ .pending)
    (hu : u ∈ before) : s.running u = false := by
  have hinOrder := h.order
  rw [horder] at hinOrder
  exact hinOrder.ended_before htold hu

omit [DecidableEq Hash] in
theorem Orderly.ended_before_forwarder (h : Orderly s) (htold : s.exits .forwarder ≠ .pending) :
    s.running .member = false ∧ s.running .aggregator = false := by
  have horder : exitOrder = [.member, .aggregator] ++ .forwarder :: [.refresher, .dataStore] := rfl
  exact ⟨h.ended_before horder htold (by decide), h.ended_before horder htold (by decide)⟩

theorem orderly_step (h : Orderly s) (hstep : Guarded Step Undropped s event s') : Orderly s' := by
  obtain ⟨hundropped, hstep⟩ := hstep
  constructor
  · obtain ⟨_, hmove⟩ := shutdown_step hundropped hstep
    exact Shutdown.inOrder_step (by decide) h.order hmove
  · cases hstep with
    | outer step => exact owned_outer h.owned step
    | aggregator step =>
      exact owned_aggregator h.owned (fun htold => (h.ended_before_forwarder htold).2) step
    | forwarder step => exact owned_forwarder h.owned step
    | exit step => exact owned_exit h.owned hundropped step

omit [DecidableEq Hash] in
theorem orderly_spawn : Orderly (spawn client sessionId lastBlock commands dataFromNetwork :
    AuthorityTasks PeerId Hash S Aleph Rmc) := by
  constructor
  · exact ⟨[], rfl, nofun, fun _ _ => rfl⟩
  · exact ⟨rfl, fun _ => ⟨rfl, rfl⟩, ⟨_, rfl, nofun⟩, fun _ => ⟨rfl, rfl, rfl⟩, nofun, nofun, nofun⟩

/-- As long as the consensus network goes on and the task that ends the others is not dropped,
the aggregator does not panic, and while it runs, the receivers of what it sends are there;
and while the member runs, the receivers of its batches and of its commands are there. -/
theorem ordered_shutdown
    (hrun : Run (Guarded Step Undropped)
      (spawn client sessionId lastBlock commands dataFromNetwork) events s) :
    (∃ task, s.aggregator = .ok task ∧ (task.position ≠ .ended →
      s.split.rmcCmd.receiverAlive = true ∧ s.messagesForRmc.receiverAlive = true)) ∧
    (s.member.running = true → s.orderedBatches.receiverAlive = true ∧
      (s.member.network = true → s.split.alephCmd.receiverAlive = true)) := by
  have h : Orderly s := by
    apply hrun.invariant Orderly orderly_spawn
    exact fun _ _ _ => orderly_step
  constructor
  · obtain ⟨task, htask, _⟩ := h.owned.aggregator
    refine ⟨task, htask, ?_⟩
    intro hposition
    have hruns := (running_aggregator htask).mpr hposition
    exact ⟨h.owned.rmcCmd_alive (fun htold => (h.ended_before_forwarder htold).2) hruns,
      (h.owned.aggregatorRuns hruns).2.2⟩
  · intro hmember
    constructor
    · -- the aggregator is told to exit when the member has ended
      have hruns : s.running .aggregator = true := by
        rw [← Bool.not_eq_false]
        intro hended
        have horder : exitOrder = [.member] ++ .aggregator :: [.forwarder, .refresher, .dataStore] :=
          rfl
        have hover : s.running .member = false :=
          h.ended_before horder (h.owned.aggregatorEnded hended) (by decide)
        exact Bool.false_ne_true (hover.symm.trans hmember)
      exact (h.owned.aggregatorRuns hruns).1
    · intro hnetwork
      rw [← Bool.not_eq_false]
      intro hdropped
      obtain hsender | htold := h.owned.alephCmd hdropped
      · rw [(h.owned.member hnetwork).2] at hsender
        cases hsender
      · exact Bool.false_ne_true ((h.ended_before_forwarder htold).1.symm.trans hmember)

end Runs

section Example

theorem ordered_shutdown_signalled :
    ∃ s : AuthorityTasks PlainPeer ℕ PlainSignature ℕ ℕ,
      s.exits .member = .sent ∧ s.member.running = true ∧
      s.split.rmcCmd.messages = [.ofData ⟨0⟩ 7 .all] ∧ s.split.rmcCmd.receiverAlive = true ∧
      s.orderedBatches.receiverAlive = true ∧ s.split.alephCmd.receiverAlive = true := by
  let start : AuthorityTasks PlainPeer ℕ PlainSignature ℕ ℕ :=
    spawn (.ofLine 9 0) ⟨0⟩ 9 [] .unbounded
  have hsends : Run (Guarded Step Undropped) start [.rmcSends 7]
      { start with messagesFromRmc := start.messagesFromRmc.trySend 7 } :=
    .tail .refl ⟨trivial, .aggregator (.rmcSends 7 rfl)⟩
  have hsent := hsends.tail (And.symm ⟨.aggregator (.sentToNetwork rfl rfl rfl rfl), trivial⟩)
  have hreceived := hsent.tail (And.symm ⟨.exit .exitReceived, trivial⟩)
  have hsignalled := hreceived.tail
    (And.symm ⟨.exit (.exitSignalled rfl rfl rfl), trivial⟩)
  obtain ⟨⟨task, htask, haggregator⟩, hmember⟩ := ordered_shutdown hsignalled
  obtain ⟨hbatches, hnetwork⟩ := hmember rfl
  have hposition : task.position ≠ .ended := by
    cases htask
    nofun
  exact ⟨_, rfl, rfl, rfl, (haggregator hposition).1, hbatches, hnetwork rfl⟩

end Example
end AuthorityTasks
end AlephNode
