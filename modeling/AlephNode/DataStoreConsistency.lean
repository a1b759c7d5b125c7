import AlephNode.DataStoreHandlers
import Mathlib.Order.Interval.Finset.Nat

/-!
# Consistency of the data store

The index, the counters and the pending messages agree between any two handled events,
whatever the client answers. So the code that expects an entry always finds it.
-/
namespace AlephNode.DataStore
open AlephNetworkMessage

variable {Hash Message Cache : Type} [DecidableEq Hash] [AlephNetworkMessage Message Hash]

/-- The requirements, the pending messages and their index by block agree. -/
structure Consistent (store : DataStore Hash Message Cache) : Prop where
  same_keys : store.messageRequirements.keys = store.pendingMessages.keys
  recent : ∀ id ∈ store.pendingMessages.keys,
    (store.nextMessageId : ℤ) - 1 - messageIdBoundary < id ∧ id < store.nextMessageId
  few : store.pendingMessages.keys.card ≤ messageIdBoundary
  nonempty : ∀ b ids, store.dependentMessages.lookup b = some ids → ids ≠ ∅
  indexed : ∀ b ids, store.dependentMessages.lookup b = some ids → ∀ id ∈ ids,
    ∃ message, store.pendingMessages.lookup id = some message ∧ b ∈ includedBlocks message
  counted : ∀ id k, store.messageRequirements.lookup id = some k →
    1 ≤ k ∧ (waitingOn store.dependentMessages id).card ≤ k

private theorem Indexed.mem_window {surplus : ℕ → ℕ} {store : DataStore Hash Message Cache}
    (h : Indexed surplus store) {id : ℕ} (hid : id ∈ store.pendingMessages.keys) :
    id < store.nextMessageId ∧ store.nextMessageId ≤ id + messageIdBoundary :=
  h.recent id (Finmap.lookup_isSome.mpr (Finmap.mem_keys.mp hid))

theorem Indexed.consistent {surplus : ℕ → ℕ} {store : DataStore Hash Message Cache}
    (h : Indexed surplus store) : Consistent store := by
  constructor
  · ext id
    rw [Finmap.mem_keys, Finmap.mem_keys, ← Finmap.lookup_isSome, ← Finmap.lookup_isSome]
    exact h.same_keys id
  · intro id hid
    have hwindow := h.mem_window hid
    omega
  · have hsub : store.pendingMessages.keys ⊆
        Finset.Ico (store.nextMessageId - messageIdBoundary) store.nextMessageId := by
      intro id hid
      have hwindow := h.mem_window hid
      rw [Finset.mem_Ico]
      omega
    have hcard := Finset.card_le_card hsub
    rw [Nat.card_Ico] at hcard
    omega
  · exact h.nonempty
  · intro b ids hids id hid
    exact h.waiting b id ⟨ids, hids, hid⟩
  · intro id k hk
    have hcount := h.counted id k hk
    omega

variable [BlockCache Cache (AlephData Hash)]

/-- In every store that a run can reach the maps agree, and every event that can follow is
handled without a panic. -/
theorem consistent_and_panic_free {client : Client Hash}
    {ready : Channel (ReadyMessage Hash Message)} {events : List (Event Hash Message)}
    {store : DataStore Hash Message Cache}
    (hrun : Run OrderedStep (new client ready) events store) :
    Consistent store ∧ ∀ event, Ordered store event → Returns (store.handle event) := by
  obtain ⟨surplus, hindexed⟩ := indexed_of_run hrun
  refine ⟨hindexed.consistent, ?_⟩
  intro event hordered
  obtain ⟨after, hhandle, _⟩ := handle_spec hindexed hordered
  exact ⟨after, hhandle⟩

/-- A message that mentions two missing blocks, one of them twice, and the import of the
other. -/
theorem consistent_and_panic_free_waiting :
    ∃ store : DataStore ℕ BlockList (LruCache (AlephData ℕ)),
      store.pendingMessages.keys = {0} ∧ Consistent store ∧
        ∀ event, Ordered store event → Returns (store.handle event) := by
  have hrun : ∃ store : DataStore ℕ BlockList (LruCache (AlephData ℕ)),
      Run OrderedStep (new (Client.ofLine 0 0) .unbounded)
        [.imported ⟨2, 1, 1⟩ (fun _ => [0]),
          .received ⟨[⟨2, 1⟩, ⟨3, 2⟩, ⟨3, 2⟩]⟩ (List.replicate 3 (Client.ofLine 0 0))
            (fun _ => [])] store ∧ store.pendingMessages.keys = {0} := by
    refine ⟨_, .tail (.tail .refl ⟨⟨?_, rfl⟩, rfl⟩) ⟨?_, rfl⟩, ?_⟩
    · decide
    · show IsOrderFor _ _
      decide
    · decide
  obtain ⟨store, hrun, hpending⟩ := hrun
  exact ⟨store, hpending, consistent_and_panic_free hrun⟩

end AlephNode.DataStore
