import AlephNode.DataStoreEffects

/-!
# What the handlers of the data store do

From an indexed store no handler panics, its effect is one of those described, and the store
is indexed again afterwards.
-/
namespace AlephNode.DataStore
open AlephNetworkMessage

variable {Hash Message Cache : Type} [DecidableEq Hash] [AlephNetworkMessage Message Hash]
  [BlockCache Cache (AlephData Hash)]

section Handlers
variable {surplus : ℕ → ℕ} {order : AlephData Hash → List ℕ} {b : AlephData Hash}
  {store middle after : DataStore Hash Message Cache}

structure Forgotten (id : ℕ) (before after : DataStore Hash Message Cache) : Prop where
  requirement : ∀ i, after.messageRequirements.lookup i =
    if i = id then none else before.messageRequirements.lookup i
  pending : ∀ i, after.pendingMessages.lookup i =
    if i = id then none else before.pendingMessages.lookup i
  waits : ∀ b i, Waits after.dependentMessages b i ↔ i ≠ id ∧ Waits before.dependentMessages b i
  nonempty : NoEmptySet before.dependentMessages → NoEmptySet after.dependentMessages
  nextId : after.nextMessageId = before.nextMessageId
  ready : after.readyMessages = before.readyMessages
  cache : after.availableBlocks = before.availableBlocks
  client : after.client = before.client

omit [BlockCache Cache (AlephData Hash)] in
private theorem forgetMessage_spec {id : ℕ} (hwaiting : ∀ b, Waits store.dependentMessages b id →
      ∃ message, store.pendingMessages.lookup id = some message ∧ b ∈ includedBlocks message) :
    Forgotten id store (store.forgetMessage id) := by
  cases hlookup : store.pendingMessages.lookup id with
  | none =>
    have hrun : store.forgetMessage id =
        { store with messageRequirements := store.messageRequirements.erase id } := by
      simp [forgetMessage, hlookup]
    rw [hrun]
    constructor <;> try rfl
    · exact FiniteMap.lookup_erase _ _
    · intro i
      split
      · next hi => rw [hi, hlookup]
      · rfl
    · intro b i
      have hfree : i = id → ¬Waits store.dependentMessages b i := by
        rintro rfl hb
        obtain ⟨m, hm, _⟩ := hwaiting b hb
        simp [hm] at hlookup
      tauto
    · exact fun h => h
  | some message =>
    have hrun : store.forgetMessage id = { store with
        messageRequirements := store.messageRequirements.erase id
        pendingMessages := store.pendingMessages.erase id
        dependentMessages := (includedBlocks message).foldl (forgetDependent id)
          store.dependentMessages } := by
      simp [forgetMessage, hlookup]
    rw [hrun]
    constructor <;> try rfl
    · exact FiniteMap.lookup_erase _ _
    · exact FiniteMap.lookup_erase _ _
    · intro b i
      have hincluded : i = id → Waits store.dependentMessages b i → b ∈ includedBlocks message := by
        rintro rfl hb
        obtain ⟨m, hm, hmem⟩ := hwaiting b hb
        rw [hlookup, Option.some.injEq] at hm
        exact hm ▸ hmem
      rw [waits_forgetAll]
      tauto
    · exact fun h => h.forgetAll _ _

omit [BlockCache Cache (AlephData Hash)] in
/-- An older message is forgotten right after another one was registered. -/
theorem forgetMessage_registered (h : Indexed surplus store) (message : Message)
    (requirements : List (AlephData Hash)) {old : ℕ}
    (hold : old + messageIdBoundary = store.nextMessageId) :
    Forgotten old (store.registerMessage message requirements)
      ((store.registerMessage message requirements).forgetMessage old) := by
  have hbound : 0 < messageIdBoundary := by decide
  have hne : old ≠ store.nextMessageId := by omega
  apply forgetMessage_spec
  intro b hb
  simpa [registerMessage, hne] using
    h.waiting b old (by simpa [registerMessage, waits_addAll, hne] using hb)

omit [BlockCache Cache (AlephData Hash)] in
theorem addPendingMessage_spec (h : Indexed surplus store) (message : Message)
    (requirements : List (AlephData Hash)) :
    Registered message requirements store (store.addPendingMessage message requirements) := by
  have hbound : 0 < messageIdBoundary := by decide
  by_cases hold : messageIdBoundary ≤ store.nextMessageId
  · -- the message registered `MESSAGE_ID_BOUNDARY` registrations ago is forgotten
    obtain ⟨old, hnext⟩ := Nat.exists_eq_add_of_le' hold
    have hne : old ≠ store.nextMessageId := by omega
    have hkey : ∀ id, id + messageIdBoundary = store.nextMessageId ↔ id = old := by omega
    have hrun : store.addPendingMessage message requirements =
        (store.registerMessage message requirements).forgetMessage old := by
      simp [addPendingMessage, hnext]
    have hforgotten := forgetMessage_registered h message requirements hnext.symm
    rw [hrun]
    constructor
    · intro id
      rw [hforgotten.requirement]
      simp only [hkey, registerMessage, FiniteMap.lookup_insert]
      by_cases hid : id = old <;> simp [hid, hne]
    · intro id
      rw [hforgotten.pending]
      simp only [hkey, registerMessage, FiniteMap.lookup_insert]
      by_cases hid : id = old <;> simp [hid, hne]
    · intro b id
      rw [hforgotten.waits]
      simp only [hkey, ne_eq, registerMessage, waits_addAll]
      by_cases hid : id = old
      · simp [hid, hne]
      · simp [hid, or_comm]
    · exact hforgotten.nonempty (h.nonempty.addAll _ _)
    · exact hforgotten.nextId
    · exact hforgotten.ready
    · exact hforgotten.cache
    · exact hforgotten.client
  · have hkey : ∀ id, id + messageIdBoundary ≠ store.nextMessageId := by omega
    have hrun : store.addPendingMessage message requirements =
        store.registerMessage message requirements := by
      simp [addPendingMessage, hold]
    rw [hrun]
    constructor <;> try rfl
    · intro id
      simp [registerMessage, FiniteMap.lookup_insert, hkey]
    · intro id
      simp [registerMessage, FiniteMap.lookup_insert, hkey]
    · intro b id
      simp [registerMessage, waits_addAll, hkey, or_comm]
    · exact h.nonempty.addAll _ _

omit [BlockCache Cache (AlephData Hash)] in
/-- A registered message counts the repetitions among its requirements as surplus. -/
theorem Registered.indexed {message : Message} {requirements : List (AlephData Hash)}
    (hreg : Registered message requirements store after) (h : Indexed surplus store)
    (hincluded : requirements ⊆ includedBlocks message) (hsome : requirements ≠ []) :
    Indexed (Function.update surplus store.nextMessageId
      (requirements.length - requirements.toFinset.card)) after := by
  have hfresh : ∀ b, ¬Waits store.dependentMessages b store.nextMessageId := by
    intro b hb
    obtain ⟨m, hm, _⟩ := h.waiting b _ hb
    have hrecent := (h.recent store.nextMessageId (by simp [hm])).1
    omega
  have hbound : messageIdBoundary ≠ 0 := by decide
  constructor
  · intro id
    rw [hreg.requirement, hreg.pending]
    split_ifs <;> simp [h.same_keys]
  · intro id k hk
    rw [hreg.requirement] at hk
    split_ifs at hk with hnew hforgotten
    · subst hnew
      have hwaits : waitingOn after.dependentMessages store.nextMessageId =
          requirements.toFinset := by
        ext b
        simp [mem_waitingOn, hreg.waits, hfresh]
      have hcard := requirements.toFinset_card_le
      have hpos := List.length_pos_iff.mpr hsome
      rw [hwaits, Function.update_self]
      cases hk
      omega
    · have hwaits : waitingOn after.dependentMessages id = waitingOn store.dependentMessages id := by
        ext b
        simp [mem_waitingOn, hreg.waits, hnew, hforgotten]
      rw [hwaits, Function.update_of_ne hnew]
      exact h.counted id k hk
  · intro b id hb
    rw [hreg.pending]
    rcases (hreg.waits b id).mp hb with ⟨hnew, hmem⟩ | ⟨hkept, hold⟩
    · exact ⟨message, by simp [hnew], hincluded hmem⟩
    · obtain ⟨m, hm, hmem⟩ := h.waiting b id hold
      have hnew : id ≠ store.nextMessageId := fun he => hfresh b (he ▸ hold)
      exact ⟨m, by simp [hnew, hkept, hm], hmem⟩
  · exact hreg.nonempty
  · intro id hid
    rw [hreg.pending] at hid
    rw [hreg.nextId]
    split_ifs at hid with hnew hforgotten
    · omega
    · simp at hid
    · have hrecent := h.recent id hid
      omega

section Lookups
variable {finalizedNumber : ℕ} {lookups : List (AlephData Hash × Client Hash)}
  {requirements : List (AlephData Hash)} (inv : DataStore Hash Message Cache → Prop)

omit [AlephNetworkMessage Message Hash] in
theorem Checked.requirements_sublist
    (h : Checked finalizedNumber lookups store requirements after) :
    requirements.Sublist (lookups.map Prod.fst) := by
  induction h with
  | nil => exact .slnil
  | cached _ _ _ ih => exact ih.cons _
  | available _ _ _ _ ih => exact ih.cons _
  | missing _ _ _ _ ih => exact ih.cons_cons _

omit [AlephNetworkMessage Message Hash] in
/-- The filter only moves the client on and adds available blocks. -/
theorem Checked.invariant (hclient : ∀ s c, inv s → s.client.Grows c → inv { s with client := c })
    (hadded : ∀ s b t, inv s → Available s.client b → Added b s t → inv t)
    (h : Checked finalizedNumber lookups store requirements after) (hinit : inv store) :
    inv after := by
  induction h with
  | nil => exact hinit
  | cached grows _ _ ih => exact ih (hclient _ _ hinit grows)
  | available grows available added _ ih =>
    exact ih (hadded _ _ _ (hclient _ _ hinit grows) available added)
  | missing grows _ _ _ ih => exact ih (hclient _ _ hinit grows)

omit [AlephNetworkMessage Message Hash] in
theorem Maintained.invariant
    (hclient : ∀ s c, inv s → s.client.Grows c → inv { s with client := c })
    (hadded : ∀ s b t, inv s → Available s.client b → Added b s t → inv t)
    (h : Maintained finalizedNumber lookups store after) (hinit : inv store) : inv after := by
  induction h with
  | nil => exact hinit
  | available grows available added _ ih =>
    exact ih (hadded _ _ _ (hclient _ _ hinit grows) available added)
  | missing grows _ _ _ ih => exact ih (hclient _ _ hinit grows)

end Lookups

/-- From an indexed store every event is handled without a panic, whatever the client
answers. -/
theorem handle_spec (h : Indexed surplus store) {event : Event Hash Message}
    (hordered : Ordered store event) :
    ∃ after, store.handle event = .ok after ∧ Handled store event after := by
  cases event with
  | received message clients order =>
    obtain ⟨horder, _⟩ := hordered
    obtain ⟨requirements, middle, hrun, hfiltered⟩ := missingBlocks_spec h horder
      store.client.finalizedNumber ((includedBlocks message).zip clients)
    cases requirements with
    | nil => exact ⟨middle.sendReady message, by simp [handle, addMessage, hrun], .sent hfiltered⟩
    | cons b rest =>
      exact ⟨_, by simp [handle, addMessage, hrun], .registered hfiltered (by simp)
        (addPendingMessage_spec (hfiltered.indexed h) message (b :: rest))⟩
  | imported block order =>
    obtain ⟨after, hrun, hadded, _⟩ := addBlock_spec h hordered ⟨block.hash, block.number⟩
    exact ⟨after, hrun, .imported hadded⟩
  | maintenance keys clients order =>
    obtain ⟨after, hrun, hswept⟩ := maintain_spec h hordered.1 store.client.finalizedNumber
      (keys.zip clients)
    exact ⟨after, hrun, .swept hswept⟩
  | clientAdvanced client => exact ⟨_, rfl, .clientAdvanced client⟩
  | readyReceiverDropped => exact ⟨_, rfl, .readyReceiverDropped⟩

theorem Handled.indexed {event : Event Hash Message} (hhandled : Handled store event after)
    (hordered : Ordered store event) (h : Indexed surplus store) :
    ∃ surplus', Indexed surplus' after := by
  cases hhandled with
  | sent filtered => exact ⟨surplus, (filtered.indexed h).congr rfl rfl rfl rfl⟩
  | @registered message clients order requirements middle _ filtered some_missing registered =>
    have hincluded : requirements ⊆ includedBlocks message := by
      have hsub := filtered.requirements_sublist
      rw [List.map_fst_zip hordered.2.ge] at hsub
      exact hsub.subset
    exact ⟨_, registered.indexed (filtered.indexed h) hincluded some_missing⟩
  | imported added => exact ⟨surplus, added.indexed h⟩
  | swept swept => exact ⟨surplus, swept.indexed h⟩
  | clientAdvanced => exact ⟨surplus, h.congr rfl rfl rfl rfl⟩
  | readyReceiverDropped => exact ⟨surplus, h.congr rfl rfl rfl rfl⟩

theorem orderedStep_handled (h : Indexed surplus store) {event : Event Hash Message}
    (hstep : OrderedStep store event after) :
    Handled store event after ∧ ∃ surplus', Indexed surplus' after := by
  obtain ⟨hordered, hrun⟩ := hstep
  obtain ⟨next, hnext, hhandled⟩ := handle_spec h hordered
  rw [hrun, Except.ok.injEq] at hnext
  subst hnext
  exact ⟨hhandled, hhandled.indexed hordered h⟩

omit [BlockCache Cache (AlephData Hash)] in
theorem Admissible.ordered {event : Event Hash Message} (h : Admissible store event) :
    Ordered store event := by
  cases event with
  | received => exact ⟨h.1, h.2.1⟩
  | imported => exact h
  | maintenance => exact ⟨h.1, h.2.1.1, h.2.2⟩
  | clientAdvanced => trivial
  | readyReceiverDropped => trivial

theorem Handled.effect {event : Event Hash Message} (hhandled : Handled store event after)
    (hadmissible : Admissible store event) : Effect store event after := by
  cases hhandled with
  | sent filtered =>
    obtain ⟨_, hlength, hgrows⟩ := hadmissible
    rw [← List.map_snd_zip hlength.le] at hgrows
    exact .sent (filtered.checked (Nat.le_refl _) hgrows)
  | registered filtered some_missing registered =>
    obtain ⟨_, hlength, hgrows⟩ := hadmissible
    rw [← List.map_snd_zip hlength.le] at hgrows
    exact .registered (filtered.checked (Nat.le_refl _) hgrows) some_missing registered
  | imported added => exact .imported added
  | swept swept =>
    obtain ⟨_, ⟨hlength, hgrows⟩, _⟩ := hadmissible
    rw [← List.map_snd_zip hlength.le] at hgrows
    exact .maintained (swept.maintained (Nat.le_refl _) hgrows)
  | clientAdvanced => exact .clientAdvanced hadmissible
  | readyReceiverDropped => exact .readyReceiverDropped

theorem step_effect (h : Indexed surplus store) {event : Event Hash Message}
    (hstep : Step store event after) :
    Effect store event after ∧ ∃ surplus', Indexed surplus' after := by
  obtain ⟨hadmissible, hrun⟩ := hstep
  obtain ⟨hhandled, hindexed⟩ := orderedStep_handled h ⟨hadmissible.ordered, hrun⟩
  exact ⟨hhandled.effect hadmissible, hindexed⟩

end Handlers

section Runs
variable {client : Client Hash} {ready : Channel (ReadyMessage Hash Message)}
  {events : List (Event Hash Message)} {store : DataStore Hash Message Cache}

omit [BlockCache Cache (AlephData Hash)] in
theorem indexed_of_empty (hreq : store.messageRequirements = ∅) (hpend : store.pendingMessages = ∅)
    (hdep : store.dependentMessages = ∅) : Indexed (fun _ => 0) store := by
  constructor <;> simp [hreq, hpend, hdep, Waits, NoEmptySet]

/-- Every store that a run can reach is indexed, whatever the client answers. -/
theorem indexed_of_run (hrun : Run OrderedStep (new client ready) events store) :
    ∃ surplus, Indexed surplus store := by
  apply hrun.invariant (fun s => ∃ surplus, Indexed surplus s)
  · exact ⟨_, indexed_of_empty rfl rfl rfl⟩
  · intro s event t h hstep
    obtain ⟨surplus, hindexed⟩ := h
    exact (orderedStep_handled hindexed hstep).2

end Runs

end AlephNode.DataStore
