import AlephNode.AuthoritySessions
import AlephNode.DataStoreAvailability
import AlephNode.LateJoiners
import AlephNode.SessionShutdown

/-!
# What the aggregator of a session gets

The data store lets a message through when all blocks that it mentions are available, the best
chain is available, and what is available remains so. Then all data that the member has got is
available, and so is all that it orders; and the aggregator gets the batches in the order in which
they were sent.
-/
namespace AlephNode

variable {Hash A S Message Cache : Type}

theorem Client.Grows.refl (client : Client Hash) : client.Grows client :=
  ⟨.refl _, Nat.le_refl _⟩

theorem Client.Grows.trans {client middle after : Client Hash} (h : client.Grows middle)
    (h' : middle.Grows after) : client.Grows after :=
  ⟨fun _ _ hknown => h'.headers _ _ (h.headers _ _ hknown), h.finalized.trans h'.finalized⟩

namespace DataStore
variable [DecidableEq Hash] {store after : DataStore Hash Message Cache} {client : Client Hash}

/-- Messages were sent under earlier states of the client. -/
def Dated (store : DataStore Hash Message Cache) : Prop :=
  ∀ r ∈ store.readyMessages.messages, r.sentUnder.Grows store.client

omit [DecidableEq Hash] in
theorem Dated.clientAdvanced (h : Dated store) (hgrows : store.client.Grows client) :
    Dated { store with client := client } := by
  intro r hr
  exact (h r hr).trans hgrows

omit [DecidableEq Hash] in
/-- Messages that are sent now are dated by the present client. -/
theorem Dated.sendAll (h : Dated store) {messages : List Message}
    (hclient : after.client = store.client)
    (hready : after.readyMessages = store.readyMessages.sendAll (messages.map (⟨·, store.client⟩))) :
    Dated after := by
  rcases store.readyMessages.sendAll_messages (messages.map (⟨·, store.client⟩)) with
    ⟨sent, hsent, hsubset⟩
  intro r hr
  rw [hready, hsent, List.mem_append] at hr
  rw [hclient]
  rcases hr with hearlier | hnow
  · exact h r hearlier
  · rcases List.mem_map.mp (hsubset hnow) with ⟨message, _, rfl⟩
    exact .refl _

variable [AlephNetworkMessage Message Hash] [BlockCache Cache (AlephData Hash)]

omit [AlephNetworkMessage Message Hash] in
theorem Dated.added {b : AlephData Hash} (h : Dated store) (hadded : Added b store after) :
    Dated after := by
  have hclient := hadded.client_eq
  rcases hadded with ⟨ids, _, _, hreleased⟩
  exact h.sendAll hclient hreleased.ready

theorem Effect.dated {event : Event Hash Message} (heffect : Effect store event after)
    (h : Dated store) : Dated after := by
  have hclient : ∀ (s : DataStore Hash Message Cache) c, Dated s → s.client.Grows c →
      Dated { s with client := c } := fun _ _ hs hgrows => hs.clientAdvanced hgrows
  have hadded : ∀ (s : DataStore Hash Message Cache) b t, Dated s →
      Available s.client b → Added b s t → Dated t := fun _ _ _ hs _ hadded => hs.added hadded
  cases heffect with
  | @sent message clients order middle checked =>
    have hmiddle := checked.invariant Dated hclient hadded h
    have hsent : (middle.sendReady message).readyMessages =
        middle.readyMessages.sendAll ([message].map (⟨·, middle.client⟩)) := rfl
    exact hmiddle.sendAll rfl hsent
  | registered checked _ registered =>
    have hmiddle := checked.invariant Dated hclient hadded h
    rw [Dated, registered.ready, registered.client]
    exact hmiddle
  | imported added => exact h.added added
  | maintained maintained => exact maintained.invariant Dated hclient hadded h
  | clientAdvanced grows => exact h.clientAdvanced grows
  | readyReceiverDropped => exact h

end DataStore

namespace AuthoritySession
variable [DecidableEq Hash] [AlephNetworkMessage Message Hash] [BlockCache Cache (AlephData Hash)]
  {client client' : Client Hash} {task task' : RunAggregator Hash S}
  {work work' : AuthoritySession Hash Message Cache}

/-- All data on the way to the aggregator is available to the client. -/
structure Stocked (client : Client Hash) (task : RunAggregator Hash S)
    (work : AuthoritySession Hash Message Cache) : Prop where
  indexed : ∃ surplus, DataStore.Indexed surplus work.dataStore
  sound : DataStore.Sound work.dataStore
  dated : DataStore.Dated work.dataStore
  seen : work.dataStore.client.Grows client
  bestChain : DataStore.Available client work.dataIo.bestChain
  memberData : ∀ b ∈ work.memberData, DataStore.Available client b
  ordered : work.dataIo.orderedBatches.messages.flatten ⊆ work.memberData
  pending : RunAggregator.pendingItems task.position ⊆ work.memberData
  known : RunAggregator.Known client.toHeaderStore task

theorem Stocked.grown (h : Stocked client task work) (hgrows : client.Grows client') :
    Stocked client' task work where
  indexed := h.indexed
  sound := h.sound
  dated := h.dated
  seen := h.seen.trans hgrows
  bestChain := h.bestChain.mono hgrows
  memberData b hb := (h.memberData b hb).mono hgrows
  ordered := h.ordered
  pending := h.pending
  known := h.known.grown hgrows.headers

theorem stocked_start {best : Option (Header Hash)} {lastBlock : ℕ}
    (hbest : ∀ header, best = some header → client.header header.hash = some header)
    (hrun : start client best = .ok work) :
    Stocked client (.start client lastBlock : RunAggregator Hash S) work := by
  cases best with
  | none => cases hrun
  | some header =>
    cases hrun
    have hindexed : ∃ surplus, DataStore.Indexed surplus
        (DataStore.new client .unbounded : DataStore Hash Message Cache) :=
      ⟨_, DataStore.indexed_of_empty rfl rfl rfl⟩
    have hsound : DataStore.Sound
        (DataStore.new client .unbounded : DataStore Hash Message Cache) := by
      refine ⟨?_, ?_, ?_⟩
      · intro b hb
        simp [DataStore.new, BlockCache.contains_empty] at hb
      · simp [DataStore.new]
      · simp [DataStore.new, Channel.unbounded]
    refine ⟨hindexed, hsound, ?_, .refl _, ?_, ?_, ?_, ?_, ?_⟩
    · simp [DataStore.Dated, DataStore.new, Channel.unbounded]
    · left
      rw [hbest header rfl]
      rfl
    · simp
    · simp [Mpsc.unbounded, Channel.unbounded]
    · exact List.nil_subset _
    · intro hash hmem
      cases hmem

/-- A message that the data store has let through is available. -/
theorem Stocked.message_available (h : Stocked client task work)
    {ready : ReadyMessage Hash Message} (hready : ready ∈ work.dataStore.readyMessages.messages) :
    DataStore.AllAvailable client ready.message := by
  intro b hb
  exact (h.sound.sent ready hready b hb).mono ((h.dated ready hready).trans h.seen)

theorem Stocked.step {event : Event Hash Message} (h : Stocked client task work)
    (hfed : work.Fed client event) (hstep : Step client work event work') :
    Stocked client task work' := by
  cases hstep with
  | @dataStore event dataStore step seen =>
    obtain ⟨surplus, hindexed⟩ := h.indexed
    obtain ⟨heffect, hindexed'⟩ := DataStore.step_effect hindexed step
    have hknown : DataStore.ImportsKnown work.dataStore event := by
      cases event with
      | imported => exact hfed
      | _ => trivial
    have hsound := heffect.sound step.1 hknown hindexed h.sound
    exact ⟨hindexed', hsound, heffect.dated h.dated, seen, h.bestChain, h.memberData, h.ordered,
      h.pending, h.known⟩
  | @bestChainRefreshed best dataIo run =>
    cases best with
    | none => cases run
    | some header =>
      cases run
      refine ⟨h.indexed, h.sound, h.dated, h.seen, ?_, h.memberData, h.ordered, h.pending, h.known⟩
      left
      rw [hfed header rfl]
      rfl
  | @messageReceived ready next =>
    have havailable := h.message_available (List.mem_of_getElem? next)
    refine ⟨h.indexed, h.sound, h.dated, h.seen, h.bestChain, ?_, ?_, ?_, h.known⟩
    · intro b hb
      rcases List.mem_append.mp hb with hearlier | hnow
      · exact h.memberData b hearlier
      · exact havailable b hnow
    · exact List.Subset.trans h.ordered (List.subset_append_left _ _)
    · exact List.Subset.trans h.pending (List.subset_append_left _ _)
  | dataProposed =>
    refine ⟨h.indexed, h.sound, h.dated, h.seen, h.bestChain, ?_, ?_, ?_, h.known⟩
    · intro b hb
      rcases List.mem_append.mp hb with hearlier | hnow
      · exact h.memberData b hearlier
      · rw [List.mem_singleton.mp hnow]
        exact h.bestChain
    · exact List.Subset.trans h.ordered (List.subset_append_left _ _)
    · exact List.Subset.trans h.pending (List.subset_append_left _ _)
  | @batchOrdered batch dataIo owns run =>
    rcases DataIo.sendOrderedBatch_ok run with ⟨_, rfl⟩
    refine ⟨h.indexed, h.sound, h.dated, h.seen, h.bestChain, h.memberData, ?_, h.pending, h.known⟩
    dsimp only
    rw [List.flatten_append, List.append_subset]
    have hdata : batch ⊆ work.memberData := hfed
    exact ⟨h.ordered, by simpa using hdata⟩
  | batchRefused => exact h
  | dataIoDropped =>
    exact ⟨h.indexed, h.sound, h.dated, h.seen, h.bestChain, h.memberData, h.ordered, h.pending,
      h.known⟩

theorem Stocked.aggregator {event : RunAggregator.Event Hash S} (h : Stocked client task work)
    (hheard : work.Heard event) (hstep : RunAggregator.Step client.toHeaderStore task event task') :
    Stocked client task' (work.aggregatorMoved event) := by
  have hknown := RunAggregator.known_step h.known hstep
  have hother : RunAggregator.pendingItems task'.position ⊆ work.memberData →
      Stocked client task' work :=
    fun hpending => { h with pending := hpending, known := hknown }
  cases hstep with
  | batch batch select unseen =>
    obtain ⟨rest, hmessages⟩ := hheard
    have hordered := h.ordered
    rw [hmessages, List.flatten_cons, List.append_subset] at hordered
    refine ⟨h.indexed, h.sound, h.dated, h.seen, h.bestChain, h.memberData, ?_, hordered.1, hknown⟩
    simpa [aggregatorMoved, Mpsc.rest, hmessages] using hordered.2
  | batchIgnored batch select seen =>
    obtain ⟨rest, hmessages⟩ := hheard
    have hordered := h.ordered
    rw [hmessages, List.flatten_cons, List.append_subset] at hordered
    refine ⟨h.indexed, h.sound, h.dated, h.seen, h.bestChain, h.memberData, ?_, h.pending, hknown⟩
    simpa [aggregatorMoved, Mpsc.rest, hmessages] using hordered.2
  | @data newData rest processing =>
    apply hother
    have hpending := h.pending
    rw [processing] at hpending
    exact List.Subset.trans (List.subset_cons_self _ _) hpending
  | multisigned select poll run =>
    apply hother
    unfold RunAggregator.sendJustification at run
    split at run
    · cases run
    · cases run
      exact h.pending
  | rmcCompleted => exact hother h.pending
  | batchDone | batchesEnded | hashesEnded | networkClosed => exact hother (List.nil_subset _)
  | exit =>
    exact ⟨h.indexed, h.sound, h.dated, h.seen, h.bestChain, h.memberData, h.ordered,
      List.nil_subset _, hknown⟩

/-- What was delivered to the aggregator with what waits in the channel is what was sent, as long
as the aggregator receives. -/
structure Forwards (sent delivered : List (List (AlephData Hash)))
    (work : AuthoritySession Hash Message Cache) : Prop where
  alive : work.dataIo.orderedBatches.receiverAlive = true →
    delivered ++ work.dataIo.orderedBatches.messages = sent
  behind : delivered ++ work.dataIo.orderedBatches.messages <+: sent

def Event.sends : Event Hash Message → List (List (AlephData Hash))
  | .batchOrdered batch => [batch]
  | _ => []

theorem Forwards.step {sent delivered : List (List (AlephData Hash))} {event : Event Hash Message}
    (h : Forwards sent delivered work) (hstep : Step client work event work') :
    Forwards (sent ++ event.sends) delivered work' := by
  have hsame : Forwards (sent ++ []) delivered work := by rwa [List.append_nil]
  cases hstep with
  | @batchOrdered batch dataIo owns run =>
    rcases DataIo.sendOrderedBatch_ok run with ⟨halive, rfl⟩
    have hsent := h.alive halive
    constructor
    · intro _
      rw [← hsent, Event.sends, List.append_assoc]
    · rw [← hsent, Event.sends, List.append_assoc]
  | @bestChainRefreshed best dataIo run =>
    cases best with
    | none => cases run
    | some header =>
      cases run
      exact ⟨hsame.alive, hsame.behind⟩
  | @dataStore event => exact ⟨hsame.alive, hsame.behind⟩
  | batchRefused => exact hsame
  | messageReceived | dataProposed | dataIoDropped => exact ⟨hsame.alive, hsame.behind⟩

omit [DecidableEq Hash] [AlephNetworkMessage Message Hash] [BlockCache Cache (AlephData Hash)] in
theorem Forwards.aggregator {sent : List (List (AlephData Hash))}
    {events : List (RunAggregator.Event Hash S)} {event : RunAggregator.Event Hash S}
    (h : Forwards sent (RunAggregator.deliveredBatches events) work) (hheard : work.Heard event) :
    Forwards sent (RunAggregator.deliveredBatches (event :: events)) (work.aggregatorMoved event) := by
  cases event with
  | batch batch =>
    obtain ⟨rest, hmessages⟩ := hheard
    have hmoved : RunAggregator.deliveredBatches events ++ work.dataIo.orderedBatches.messages =
        RunAggregator.deliveredBatches
            (.batch batch :: events : List (RunAggregator.Event Hash S)) ++
          (work.aggregatorMoved
            (.batch batch : RunAggregator.Event Hash S)).dataIo.orderedBatches.messages := by
      simp [aggregatorMoved, Mpsc.rest, hmessages]
    refine ⟨?_, hmoved ▸ h.behind⟩
    intro halive
    exact hmoved ▸ h.alive halive
  | exit =>
    refine ⟨?_, h.behind⟩
    intro halive
    cases halive
  | _ => exact h

end AuthoritySession
end AlephNode
