import AlephNode.DataStoreIndex

/-!
# Effects on the data store

Every handled event is described by its effect on the maps: blocks that are added one by
one, messages that are checked, requirements that are filtered. An added block keeps the
store indexed, and so do the loops of the maintenance.
-/
namespace AlephNode.DataStore
open AlephNetworkMessage

variable {Hash Message Cache : Type} [DecidableEq Hash] [AlephNetworkMessage Message Hash]
  [BlockCache Cache (AlephData Hash)]

/-- What `add_block` does: the messages that wait for the block are visited, in some order. -/
def Added (b : AlephData Hash) (before after : DataStore Hash Message Cache) : Prop :=
  ∃ ids : List ℕ, ids.Nodup ∧ (∀ id, id ∈ ids ↔ Waits before.dependentMessages b id) ∧
    Released ids { before with
      dependentMessages := before.dependentMessages.erase b
      availableBlocks := BlockCache.put before.availableBlocks b } after

/-- What the availability filter of `add_message` does, lookup by lookup. -/
inductive Checked (finalizedNumber : ℕ) :
    List (AlephData Hash × Client Hash) → DataStore Hash Message Cache →
      List (AlephData Hash) → DataStore Hash Message Cache → Prop
  | nil (store) : Checked finalizedNumber [] store [] store
  | cached {b client rest store requirements after}
      (grows : store.client.Grows client)
      (hit : BlockCache.contains store.availableBlocks b = true)
      (tail : Checked finalizedNumber rest { store with client := client } requirements after) :
      Checked finalizedNumber ((b, client) :: rest) store requirements after
  | available {b client rest store middle requirements after}
      (grows : store.client.Grows client) (available : Available client b)
      (added : Added b { store with client := client } middle)
      (tail : Checked finalizedNumber rest middle requirements after) :
      Checked finalizedNumber ((b, client) :: rest) store requirements after
  | missing {b client rest store requirements after}
      (grows : store.client.Grows client) (unknown : client.header b.hash = none)
      (unfinalized : finalizedNumber < b.number)
      (tail : Checked finalizedNumber rest { store with client := client } requirements after) :
      Checked finalizedNumber ((b, client) :: rest) store (b :: requirements) after

inductive Maintained (finalizedNumber : ℕ) :
    List (AlephData Hash × Client Hash) → DataStore Hash Message Cache →
      DataStore Hash Message Cache → Prop
  | nil (store) : Maintained finalizedNumber [] store store
  | available {b client rest store middle after}
      (grows : store.client.Grows client) (available : Available client b)
      (added : Added b { store with client := client } middle)
      (tail : Maintained finalizedNumber rest middle after) :
      Maintained finalizedNumber ((b, client) :: rest) store after
  | missing {b client rest store after}
      (grows : store.client.Grows client) (unknown : client.header b.hash = none)
      (unfinalized : finalizedNumber < b.number)
      (tail : Maintained finalizedNumber rest { store with client := client } after) :
      Maintained finalizedNumber ((b, client) :: rest) store after

/-- What registering a message does. The message that is `MESSAGE_ID_BOUNDARY` older is
forgotten. -/
structure Registered (message : Message) (requirements : List (AlephData Hash))
    (before after : DataStore Hash Message Cache) : Prop where
  requirement : ∀ id, after.messageRequirements.lookup id =
    if id = before.nextMessageId then some requirements.length
    else if id + messageIdBoundary = before.nextMessageId then none
    else before.messageRequirements.lookup id
  pending : ∀ id, after.pendingMessages.lookup id =
    if id = before.nextMessageId then some message
    else if id + messageIdBoundary = before.nextMessageId then none
    else before.pendingMessages.lookup id
  waits : ∀ b id, Waits after.dependentMessages b id ↔
    (id = before.nextMessageId ∧ b ∈ requirements) ∨
      (id + messageIdBoundary ≠ before.nextMessageId ∧ Waits before.dependentMessages b id)
  nonempty : NoEmptySet after.dependentMessages
  nextId : after.nextMessageId = before.nextMessageId + 1
  ready : after.readyMessages = before.readyMessages
  cache : after.availableBlocks = before.availableBlocks
  client : after.client = before.client

/-- What the availability filter does whatever the client answers, lookup by lookup. -/
inductive Filtered (finalizedNumber : ℕ) :
    List (AlephData Hash × Client Hash) → DataStore Hash Message Cache →
      List (AlephData Hash) → DataStore Hash Message Cache → Prop
  | nil (store) : Filtered finalizedNumber [] store [] store
  | cached {b client rest store requirements after}
      (hit : BlockCache.contains store.availableBlocks b = true)
      (tail : Filtered finalizedNumber rest { store with client := client } requirements after) :
      Filtered finalizedNumber ((b, client) :: rest) store requirements after
  | found {b client rest store middle requirements after}
      (found : (client.header b.hash).isSome ∨ b.number ≤ finalizedNumber)
      (added : Added b { store with client := client } middle)
      (tail : Filtered finalizedNumber rest middle requirements after) :
      Filtered finalizedNumber ((b, client) :: rest) store requirements after
  | missing {b client rest store requirements after}
      (unknown : client.header b.hash = none) (unfinalized : finalizedNumber < b.number)
      (tail : Filtered finalizedNumber rest { store with client := client } requirements after) :
      Filtered finalizedNumber ((b, client) :: rest) store (b :: requirements) after

/-- What the maintenance loop does whatever the client answers, key by key. -/
inductive Swept (finalizedNumber : ℕ) :
    List (AlephData Hash × Client Hash) → DataStore Hash Message Cache →
      DataStore Hash Message Cache → Prop
  | nil (store) : Swept finalizedNumber [] store store
  | found {b client rest store middle after}
      (found : (client.header b.hash).isSome ∨ b.number ≤ finalizedNumber)
      (added : Added b { store with client := client } middle)
      (tail : Swept finalizedNumber rest middle after) :
      Swept finalizedNumber ((b, client) :: rest) store after
  | missing {b client rest store after}
      (unknown : client.header b.hash = none) (unfinalized : finalizedNumber < b.number)
      (tail : Swept finalizedNumber rest { store with client := client } after) :
      Swept finalizedNumber ((b, client) :: rest) store after

inductive Handled (store : DataStore Hash Message Cache) :
    Event Hash Message → DataStore Hash Message Cache → Prop
  | sent {message clients order middle}
      (filtered : Filtered store.client.finalizedNumber ((includedBlocks message).zip clients)
        store [] middle) :
      Handled store (.received message clients order) (middle.sendReady message)
  | registered {message clients order requirements middle after}
      (filtered : Filtered store.client.finalizedNumber ((includedBlocks message).zip clients)
        store requirements middle)
      (some_missing : requirements ≠ []) (registered : Registered message requirements middle after) :
      Handled store (.received message clients order) after
  | imported {block order after} (added : Added ⟨block.hash, block.number⟩ store after) :
      Handled store (.imported block order) after
  | swept {keys clients order after}
      (swept : Swept store.client.finalizedNumber (keys.zip clients) store after) :
      Handled store (.maintenance keys clients order) after
  | clientAdvanced (client) : Handled store (.clientAdvanced client) { store with client := client }
  | readyReceiverDropped : Handled store .readyReceiverDropped
      { store with readyMessages := store.readyMessages.dropReceiver }

/-- The iteration orders are orders of the sets iterated over, and there is an answer of the
client for every lookup. What the client answers is left open. -/
def Ordered (store : DataStore Hash Message Cache) : Event Hash Message → Prop
  | .received message clients order =>
    IsOrderFor order store.dependentMessages ∧ clients.length = (includedBlocks message).length
  | .imported _ order => IsOrderFor order store.dependentMessages
  | .maintenance keys clients order =>
    IsOrderFor order store.dependentMessages ∧ clients.length = keys.length ∧
      Enumerates keys store.dependentMessages.keys
  | .clientAdvanced _ => True
  | .readyReceiverDropped => True

/-- One handled event, over a client that may answer anything. -/
def OrderedStep (store : DataStore Hash Message Cache) (event : Event Hash Message)
    (next : DataStore Hash Message Cache) : Prop :=
  Ordered store event ∧ store.handle event = .ok next

inductive Effect (store : DataStore Hash Message Cache) :
    Event Hash Message → DataStore Hash Message Cache → Prop
  | sent {message clients order middle}
      (checked : Checked store.client.finalizedNumber ((includedBlocks message).zip clients)
        store [] middle) :
      Effect store (.received message clients order) (middle.sendReady message)
  | registered {message clients order requirements middle after}
      (checked : Checked store.client.finalizedNumber ((includedBlocks message).zip clients)
        store requirements middle)
      (some_missing : requirements ≠ []) (registered : Registered message requirements middle after) :
      Effect store (.received message clients order) after
  | imported {block order after} (added : Added ⟨block.hash, block.number⟩ store after) :
      Effect store (.imported block order) after
  | maintained {keys clients order after}
      (maintained : Maintained store.client.finalizedNumber (keys.zip clients) store after) :
      Effect store (.maintenance keys clients order) after
  | clientAdvanced {client} (grows : store.client.Grows client) :
      Effect store (.clientAdvanced client) { store with client := client }
  | readyReceiverDropped : Effect store .readyReceiverDropped
      { store with readyMessages := store.readyMessages.dropReceiver }

section Handlers
variable {surplus : ℕ → ℕ} {order : AlephData Hash → List ℕ} {b : AlephData Hash}
  {store middle after : DataStore Hash Message Cache}

omit [AlephNetworkMessage Message Hash] in
theorem Added.client_eq (h : Added b store after) : after.client = store.client := by
  obtain ⟨_, _, _, hreleased⟩ := h
  exact hreleased.client

omit [AlephNetworkMessage Message Hash] in
theorem Added.dependents (h : Added b store after) :
    after.dependentMessages = store.dependentMessages.erase b := by
  obtain ⟨_, _, _, hreleased⟩ := h
  exact hreleased.dependents

omit [AlephNetworkMessage Message Hash] in
theorem Added.nextId (h : Added b store after) : after.nextMessageId = store.nextMessageId := by
  obtain ⟨_, _, _, hreleased⟩ := h
  exact hreleased.nextId

omit [AlephNetworkMessage Message Hash] in
theorem Added.waits (h : Added b store after) (b' : AlephData Hash) (id : ℕ) :
    Waits after.dependentMessages b' id ↔ Waits store.dependentMessages b' id ∧ b' ≠ b := by
  rw [h.dependents, waits_erase]

omit [AlephNetworkMessage Message Hash] in
theorem Added.requirement (h : Added b store after) (id : ℕ) :
    after.messageRequirements.lookup id =
      if Waits store.dependentMessages b id then
        (store.messageRequirements.lookup id).bind oneLess
      else store.messageRequirements.lookup id := by
  obtain ⟨_, _, hids, hreleased⟩ := h
  simp only [hreleased.requirements, hids]

omit [AlephNetworkMessage Message Hash] in
theorem Added.pending (h : Added b store after) (id : ℕ) :
    after.pendingMessages.lookup id =
      if Waits store.dependentMessages b id ∧ store.messageRequirements.lookup id = some 1 then none
      else store.pendingMessages.lookup id := by
  obtain ⟨_, _, hids, hreleased⟩ := h
  simp only [hreleased.pending, hids]

/-- Adding a block keeps the maps in agreement, with the same surplus. -/
theorem Added.indexed (hadded : Added b store after) (h : Indexed surplus store) :
    Indexed surplus after := by
  have hwaitingOn : ∀ id, waitingOn after.dependentMessages id =
      (waitingOn store.dependentMessages id).erase b := by
    intro id
    ext b'
    simp [mem_waitingOn, hadded.waits, and_comm]
  constructor
  · intro id
    rw [hadded.requirement, hadded.pending]
    by_cases hb : Waits store.dependentMessages b id
    · obtain ⟨k, hk⟩ := h.counter_of_waits hb
      obtain ⟨message, hmessage, _⟩ := h.waiting b id hb
      by_cases hlast : k = 0 <;> simp [hb, hk, hmessage, oneLess, hlast]
    · simp [hb, h.same_keys]
  · intro id k hk
    rw [hadded.requirement] at hk
    rw [hwaitingOn]
    by_cases hb : Waits store.dependentMessages b id
    · obtain ⟨j, hj⟩ := h.counter_of_waits hb
      have hcount := (h.counted id _ hj).2
      have hmem := mem_waitingOn.mpr hb
      have hpos := Finset.card_pos.mpr ⟨b, hmem⟩
      rw [if_pos hb, hj, Option.bind_some, oneLess] at hk
      rw [Finset.card_erase_of_mem hmem]
      split at hk
      · cases hk
      · cases hk
        omega
    · rw [if_neg hb] at hk
      rw [Finset.erase_eq_of_notMem (fun hmem => hb (mem_waitingOn.mp hmem))]
      exact h.counted id k hk
  · intro b' id hb'
    obtain ⟨hwaits, hne⟩ := (hadded.waits b' id).mp hb'
    rw [hadded.pending, if_neg]
    · exact h.waiting b' id hwaits
    · rintro ⟨hb, hone⟩
      exact hne (h.eq_of_waits_of_one hone hb hwaits)
  · rw [hadded.dependents]
    exact h.nonempty.erase b
  · intro id hid
    rw [hadded.pending] at hid
    rw [hadded.nextId]
    split at hid
    · simp at hid
    · exact h.recent id hid

theorem addBlock_spec (h : Indexed surplus store)
    (horder : IsOrderFor order store.dependentMessages) (b : AlephData Hash) :
    ∃ after, store.addBlock order b = .ok after ∧ Added b store after ∧
      IsOrderFor order after.dependentMessages := by
  cases hids : store.dependentMessages.lookup b with
  | none =>
    have hfree : ∀ id, ¬Waits store.dependentMessages b id := by simp [Waits, hids]
    refine ⟨{ store with availableBlocks := BlockCache.put store.availableBlocks b },
      by simp [addBlock, pushMessages, hids], ⟨[], List.nodup_nil, by simp [hfree], ?_⟩, horder⟩
    rw [FiniteMap.erase_eq_self hids]
    exact .nil _
  | some ids =>
    obtain ⟨hnodup, hmem⟩ := horder b ids hids
    have hwaits : ∀ id, id ∈ order b ↔ Waits store.dependentMessages b id := by
      simp [Waits, hids, hmem]
    have hcounted : ∀ id ∈ order b, ∃ k, store.messageRequirements.lookup id = some (k + 1) :=
      fun id hid => h.counter_of_waits ((hwaits id).mp hid)
    have hpending : ∀ id ∈ order b, ∃ message, store.pendingMessages.lookup id = some message :=
      fun id hid => (h.waiting b id ((hwaits id).mp hid)).imp fun _ hm => hm.1
    obtain ⟨after, hloop, hreleased⟩ : ∃ after, (order b).foldlM releaseRequirement { store with
        dependentMessages := store.dependentMessages.erase b
        availableBlocks := BlockCache.put store.availableBlocks b } = .ok after ∧ _ :=
      release_loop hnodup hcounted hpending
    refine ⟨after, by simpa [addBlock, pushMessages, hids] using hloop,
      ⟨order b, hnodup, hwaits, hreleased⟩, ?_⟩
    intro b' ids' hids'
    rw [hreleased.dependents, FiniteMap.lookup_erase] at hids'
    split at hids'
    · cases hids'
    · exact horder b' ids' hids'

theorem missingBlocks_spec (h : Indexed surplus store)
    (horder : IsOrderFor order store.dependentMessages) (finalizedNumber : ℕ)
    (lookups : List (AlephData Hash × Client Hash)) :
    ∃ requirements after, missingBlocks order finalizedNumber lookups store =
        .ok (requirements, after) ∧ Filtered finalizedNumber lookups store requirements after := by
  induction lookups generalizing store with
  | nil => exact ⟨[], store, rfl, .nil store⟩
  | cons lookup rest ih =>
    obtain ⟨b, client⟩ := lookup
    have hmoved : Indexed surplus { store with client := client } := h.congr rfl rfl rfl rfl
    by_cases hcached : BlockCache.contains store.availableBlocks b = true
    · obtain ⟨requirements, after, hrun, hfiltered⟩ := ih hmoved horder
      exact ⟨requirements, after, by simpa [missingBlocks, hcached] using hrun,
        .cached hcached hfiltered⟩
    · by_cases hfound : (client.header b.hash).isSome ∨ b.number ≤ finalizedNumber
      · obtain ⟨middle, hadd, hadded, horder'⟩ := addBlock_spec hmoved horder b
        obtain ⟨requirements, after, hrun, hfiltered⟩ := ih (hadded.indexed hmoved) horder'
        refine ⟨requirements, after, ?_, .found hfound hadded hfiltered⟩
        by_cases hknown : (client.header b.hash).isSome
        · simp [missingBlocks, hcached, hknown, hadd, hrun]
        · simp [missingBlocks, hcached, hknown, hfound.resolve_left hknown, hadd, hrun]
      · obtain ⟨hunknown, hlarge⟩ := not_or.mp hfound
        obtain ⟨requirements, after, hrun, hfiltered⟩ := ih hmoved horder
        exact ⟨b :: requirements, after, by simp [missingBlocks, hcached, hunknown, hlarge, hrun],
          .missing (by simpa using hunknown) (by omega) hfiltered⟩

theorem maintain_spec (h : Indexed surplus store)
    (horder : IsOrderFor order store.dependentMessages) (finalizedNumber : ℕ)
    (lookups : List (AlephData Hash × Client Hash)) :
    ∃ after, lookups.foldlM (maintainBlock order finalizedNumber) store = .ok after ∧
      Swept finalizedNumber lookups store after := by
  induction lookups generalizing store with
  | nil => exact ⟨store, rfl, .nil store⟩
  | cons lookup rest ih =>
    obtain ⟨b, client⟩ := lookup
    have hmoved : Indexed surplus { store with client := client } := h.congr rfl rfl rfl rfl
    by_cases hfound : (client.header b.hash).isSome ∨ b.number ≤ finalizedNumber
    · obtain ⟨middle, hadd, hadded, horder'⟩ := addBlock_spec hmoved horder b
      obtain ⟨after, hrun, hswept⟩ := ih (hadded.indexed hmoved) horder'
      have hfirst : maintainBlock order finalizedNumber store (b, client) = .ok middle := by
        by_cases hknown : (client.header b.hash).isSome
        · simp [maintainBlock, hknown, hadd]
        · simp [maintainBlock, hknown, hfound.resolve_left hknown, hadd]
      exact ⟨after, by rw [List.foldlM_cons, hfirst, ok_bind, hrun], .found hfound hadded hswept⟩
    · obtain ⟨hunknown, hlarge⟩ := not_or.mp hfound
      obtain ⟨after, hrun, hswept⟩ := ih hmoved horder
      have hfirst : maintainBlock order finalizedNumber store (b, client) =
          .ok { store with client := client } := by
        simp [maintainBlock, hunknown, hlarge]
      exact ⟨after, by rw [List.foldlM_cons, hfirst, ok_bind, hrun],
        .missing (by simpa using hunknown) (by omega) hswept⟩

section Lookups
variable {finalizedNumber : ℕ} {lookups : List (AlephData Hash × Client Hash)}
  {requirements : List (AlephData Hash)}

theorem Filtered.indexed (h : Filtered finalizedNumber lookups store requirements after)
    (hindexed : Indexed surplus store) : Indexed surplus after := by
  induction h with
  | nil => exact hindexed
  | cached _ _ ih => exact ih (hindexed.congr rfl rfl rfl rfl)
  | found _ added _ ih => exact ih (added.indexed (hindexed.congr rfl rfl rfl rfl))
  | missing _ _ _ ih => exact ih (hindexed.congr rfl rfl rfl rfl)

theorem Swept.indexed (h : Swept finalizedNumber lookups store after)
    (hindexed : Indexed surplus store) : Indexed surplus after := by
  induction h with
  | nil => exact hindexed
  | found _ added _ ih => exact ih (added.indexed (hindexed.congr rfl rfl rfl rfl))
  | missing _ _ _ ih => exact ih (hindexed.congr rfl rfl rfl rfl)

omit [AlephNetworkMessage Message Hash] in
theorem Filtered.requirements_sublist
    (h : Filtered finalizedNumber lookups store requirements after) :
    requirements.Sublist (lookups.map Prod.fst) := by
  induction h with
  | nil => exact .slnil
  | cached _ _ ih => exact ih.cons _
  | found _ _ _ ih => exact ih.cons _
  | missing _ _ _ ih => exact ih.cons_cons _

omit [AlephNetworkMessage Message Hash] in
/-- Over a client that grows, the blocks that were found are available. -/
theorem Filtered.checked (h : Filtered finalizedNumber lookups store requirements after)
    (hfinalized : finalizedNumber ≤ store.client.finalizedNumber)
    (hgrows : (store.client :: lookups.map Prod.snd).IsChain Client.Grows) :
    Checked finalizedNumber lookups store requirements after := by
  induction h with
  | nil => exact .nil _
  | cached hit _ ih =>
    obtain ⟨hgrow, hrest⟩ := List.isChain_cons_cons.mp hgrows
    exact .cached hgrow hit (ih (hfinalized.trans hgrow.finalized) hrest)
  | found found added _ ih =>
    obtain ⟨hgrow, hrest⟩ := List.isChain_cons_cons.mp hgrows
    have hnumber := hfinalized.trans hgrow.finalized
    have hclient := added.client_eq
    exact .available hgrow (found.imp_right (·.trans hnumber)) added
      (ih (by rw [hclient]; exact hnumber) (by rw [hclient]; exact hrest))
  | missing unknown unfinalized _ ih =>
    obtain ⟨hgrow, hrest⟩ := List.isChain_cons_cons.mp hgrows
    exact .missing hgrow unknown unfinalized (ih (hfinalized.trans hgrow.finalized) hrest)

omit [AlephNetworkMessage Message Hash] in
theorem Swept.maintained (h : Swept finalizedNumber lookups store after)
    (hfinalized : finalizedNumber ≤ store.client.finalizedNumber)
    (hgrows : (store.client :: lookups.map Prod.snd).IsChain Client.Grows) :
    Maintained finalizedNumber lookups store after := by
  induction h with
  | nil => exact .nil _
  | found found added _ ih =>
    obtain ⟨hgrow, hrest⟩ := List.isChain_cons_cons.mp hgrows
    have hnumber := hfinalized.trans hgrow.finalized
    have hclient := added.client_eq
    exact .available hgrow (found.imp_right (·.trans hnumber)) added
      (ih (by rw [hclient]; exact hnumber) (by rw [hclient]; exact hrest))
  | missing unknown unfinalized _ ih =>
    obtain ⟨hgrow, hrest⟩ := List.isChain_cons_cons.mp hgrows
    exact .missing hgrow unknown unfinalized (ih (hfinalized.trans hgrow.finalized) hrest)

end Lookups

end Handlers
end AlephNode.DataStore
