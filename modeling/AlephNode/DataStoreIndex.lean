import AlephNode.DataStore
import Mathlib.Data.Finset.Card
import Mathlib.Tactic.Tauto

/-!
# The index of waiting messages

The dependents are an inverted index of sets, the requirements are counters. The invariant
`Indexed` ties the two together. A message that mentions a missing block repeatedly is
counted once for each repetition but indexed once; the difference is its surplus.
-/
namespace AlephNode.DataStore
open AlephNetworkMessage

variable {Hash Message Cache : Type}

/-- The messages sent on `ready_messages_tx`, oldest first. -/
def sentMessages (store : DataStore Hash Message Cache) : List Message :=
  store.readyMessages.messages.map ReadyMessage.message

theorem sent_sendAll (channel : Channel (ReadyMessage Hash Message)) (client : Client Hash)
    (messages : List Message) :
    (channel.sendAll (messages.map (⟨·, client⟩))).messages.map ReadyMessage.message =
      channel.messages.map ReadyMessage.message ++ if channel.receiverAlive then messages else [] := by
  cases halive : channel.receiverAlive <;> simp [Channel.sendAll, halive, Function.comp_def]

theorem sentMessages_sendReady (store : DataStore Hash Message Cache) (message : Message) :
    sentMessages (store.sendReady message) =
      sentMessages store ++ if store.readyMessages.receiverAlive then [message] else [] :=
  sent_sendAll store.readyMessages store.client [message]

/-- The messages among `ids` that miss one block only, in order. -/
def dueMessages (store : DataStore Hash Message Cache) (ids : List ℕ) : List Message :=
  ids.filterMap (fun id =>
    if store.messageRequirements.lookup id = some 1 then store.pendingMessages.lookup id else none)

def oneLess (k : ℕ) : Option ℕ := if k ≤ 1 then none else some (k - 1)

/-- What visiting each of `ids` once does to the store. -/
structure Released (ids : List ℕ) (before after : DataStore Hash Message Cache) : Prop where
  requirements : ∀ id, after.messageRequirements.lookup id =
    if id ∈ ids then (before.messageRequirements.lookup id).bind oneLess
    else before.messageRequirements.lookup id
  pending : ∀ id, after.pendingMessages.lookup id =
    if id ∈ ids ∧ before.messageRequirements.lookup id = some 1 then none
    else before.pendingMessages.lookup id
  ready : after.readyMessages =
    before.readyMessages.sendAll ((dueMessages before ids).map (⟨·, before.client⟩))
  dependents : after.dependentMessages = before.dependentMessages
  cache : after.availableBlocks = before.availableBlocks
  nextId : after.nextMessageId = before.nextMessageId
  client : after.client = before.client

theorem Released.sent {ids : List ℕ} {before after : DataStore Hash Message Cache}
    (h : Released ids before after) : sentMessages after = sentMessages before ++
      if before.readyMessages.receiverAlive then dueMessages before ids else [] := by
  rw [sentMessages, h.ready, sent_sendAll, sentMessages]

theorem Released.nil (store : DataStore Hash Message Cache) : Released [] store store where
  requirements := by simp
  pending := by simp
  ready := by simp [dueMessages]
  dependents := rfl
  cache := rfl
  nextId := rfl
  client := rfl

theorem Released.cons {id : ℕ} {ids : List ℕ} {store middle after : DataStore Hash Message Cache}
    (h : Released [id] store middle) (h' : Released ids middle after)
    (hid : id ∉ ids) : Released (id :: ids) store after := by
  have hreq : ∀ i, i ≠ id →
      middle.messageRequirements.lookup i = store.messageRequirements.lookup i := by
    intro i hi
    rw [h.requirements, if_neg (by simpa using hi)]
  have hpend : ∀ i, i ≠ id →
      middle.pendingMessages.lookup i = store.pendingMessages.lookup i := by
    intro i hi
    rw [h.pending, if_neg (by simp [hi])]
  have hdue : dueMessages middle ids = dueMessages store ids := by
    apply List.filterMap_congr
    intro i hi
    have hne : i ≠ id := fun he => hid (he ▸ hi)
    rw [hreq i hne, hpend i hne]
  refine ⟨?_, ?_, ?_, h'.dependents.trans h.dependents, h'.cache.trans h.cache,
    h'.nextId.trans h.nextId, h'.client.trans h.client⟩
  · intro i
    rw [h'.requirements]
    by_cases hi : i = id
    · subst hi
      simp [hid, h.requirements]
    · simp [hi, hreq i hi]
  · intro i
    rw [h'.pending]
    by_cases hi : i = id
    · subst hi
      simp [hid, h.pending]
    · simp [hi, hreq i hi, hpend i hi]
  · have happ : dueMessages store (id :: ids) = dueMessages store [id] ++ dueMessages store ids :=
      List.filterMap_append (l := [id])
    rw [h'.ready, h.ready, hdue, h.client, happ, List.map_append, Channel.sendAll_append]

section Release
variable {ids : List ℕ} {id : ℕ} {store : DataStore Hash Message Cache}

/-- Visiting a message that is counted and pending does not panic. -/
theorem releaseRequirement_spec {k : ℕ} (hk : store.messageRequirements.lookup id = some (k + 1))
    {message : Message} (hmessage : store.pendingMessages.lookup id = some message) :
    ∃ after, store.releaseRequirement id = .ok after ∧ Released [id] store after := by
  by_cases hlast : k = 0
  · subst hlast
    refine ⟨{ store with
      readyMessages := store.readyMessages.sendAll [⟨message, store.client⟩]
      messageRequirements := (store.messageRequirements.insert id 0).erase id
      pendingMessages := store.pendingMessages.erase id },
      by simp [releaseRequirement, hk, hmessage, sendReady], ?_⟩
    constructor <;> try rfl
    · intro i
      by_cases hi : i = id
      · subst hi
        simp [hk, oneLess]
      · simp [hi]
    · intro i
      by_cases hi : i = id
      · subst hi
        simp [hk]
      · simp [hi]
    · simp [dueMessages, hk, hmessage]
  · refine ⟨{ store with messageRequirements := store.messageRequirements.insert id k },
      by simp [releaseRequirement, hk, hlast], ?_⟩
    constructor <;> try rfl
    · intro i
      by_cases hi : i = id
      · subst hi
        simp [hk, oneLess, hlast]
      · simp [hi]
    · intro i
      by_cases hi : i = id
      · subst hi
        simp [hk, hlast]
      · simp [hi]
    · simp [dueMessages, hk, hlast]

/-- The release loop visits every message once and does not panic. -/
theorem release_loop (hnodup : ids.Nodup)
    (hcounted : ∀ id ∈ ids, ∃ k, store.messageRequirements.lookup id = some (k + 1))
    (hpending : ∀ id ∈ ids, ∃ message, store.pendingMessages.lookup id = some message) :
    ∃ after, ids.foldlM releaseRequirement store = .ok after ∧ Released ids store after := by
  induction ids generalizing store with
  | nil => exact ⟨store, rfl, .nil store⟩
  | cons id ids ih =>
    obtain ⟨hid, hids⟩ := List.nodup_cons.mp hnodup
    obtain ⟨k, hk⟩ := hcounted id List.mem_cons_self
    obtain ⟨message, hmessage⟩ := hpending id List.mem_cons_self
    obtain ⟨middle, hstep, hfirst⟩ := releaseRequirement_spec hk hmessage
    have hother : ∀ i ∈ ids, i ≠ id := fun i hi he => hid (he ▸ hi)
    have hcounted' : ∀ i ∈ ids, ∃ k, middle.messageRequirements.lookup i = some (k + 1) := by
      intro i hi
      rw [hfirst.requirements, if_neg (by simpa using hother i hi)]
      exact hcounted i (List.mem_cons_of_mem _ hi)
    have hpending' : ∀ i ∈ ids, ∃ message, middle.pendingMessages.lookup i = some message := by
      intro i hi
      rw [hfirst.pending, if_neg (by simp [hother i hi])]
      exact hpending i (List.mem_cons_of_mem _ hi)
    obtain ⟨after, hloop, hrest⟩ := ih hids hcounted' hpending'
    exact ⟨after, by rw [List.foldlM_cons, hstep, ok_bind, hloop], hfirst.cons hrest hid⟩

end Release

variable [DecidableEq Hash]

/-- The message `id` waits for the block. -/
def Waits (dependents : FiniteMap (AlephData Hash) (Finset ℕ)) (b : AlephData Hash) (id : ℕ) :
    Prop :=
  ∃ ids, dependents.lookup b = some ids ∧ id ∈ ids

instance (dependents : FiniteMap (AlephData Hash) (Finset ℕ)) (b : AlephData Hash) (id : ℕ) :
    Decidable (Waits dependents b id) :=
  match h : dependents.lookup b with
  | none => .isFalse (by simp [Waits, h])
  | some ids => decidable_of_iff (id ∈ ids) (by simp [Waits, h])

/-- The blocks for which the message `id` waits. -/
def waitingOn (dependents : FiniteMap (AlephData Hash) (Finset ℕ)) (id : ℕ) :
    Finset (AlephData Hash) :=
  dependents.keys.filter (fun b => Waits dependents b id)

def NoEmptySet (dependents : FiniteMap (AlephData Hash) (Finset ℕ)) : Prop :=
  ∀ b ids, dependents.lookup b = some ids → ids ≠ ∅

section Dependents
variable {dependents dependents' : FiniteMap (AlephData Hash) (Finset ℕ)}

theorem mem_waitingOn {b : AlephData Hash} {id : ℕ} :
    b ∈ waitingOn dependents id ↔ Waits dependents b id := by
  simp only [waitingOn, Finset.mem_filter, Finmap.mem_keys, and_iff_right_iff_imp]
  rintro ⟨ids, hb, _⟩
  exact Finmap.mem_of_lookup_eq_some hb

theorem waits_erase {b b' : AlephData Hash} {id : ℕ} :
    Waits (dependents.erase b) b' id ↔ Waits dependents b' id ∧ b' ≠ b := by
  simp only [Waits, FiniteMap.lookup_erase]
  by_cases h : b' = b <;> simp [h]

theorem waits_insert {b b' : AlephData Hash} {ids : Finset ℕ} {id : ℕ} :
    Waits (dependents.insert b ids) b' id ↔
      (b' = b ∧ id ∈ ids) ∨ (b' ≠ b ∧ Waits dependents b' id) := by
  simp only [Waits, FiniteMap.lookup_insert]
  by_cases h : b' = b <;> simp [h]

theorem waits_forgetDependent {b b' : AlephData Hash} {id id' : ℕ} :
    Waits (forgetDependent id dependents b) b' id' ↔
      Waits dependents b' id' ∧ ¬(id' = id ∧ b' = b) := by
  unfold forgetDependent
  split
  · next hnone =>
    refine ⟨fun h => ⟨h, ?_⟩, fun h => h.1⟩
    rintro ⟨rfl, rfl⟩
    obtain ⟨ids, hids, _⟩ := h
    simp [hnone] at hids
  · next ids hids =>
    have hb : Waits dependents b id' ↔ id' ∈ ids := by simp [Waits, hids]
    split
    · next hempty =>
      rw [waits_erase]
      have hsub : id' ∈ ids → id' = id := fun h => by
        by_contra hne
        exact Finset.notMem_empty id' (hempty ▸ Finset.mem_erase.mpr ⟨hne, h⟩)
      by_cases he : b' = b
      · subst he
        simp only [hb, ne_eq, not_true_eq_false, and_false, and_true, false_iff, not_and, not_not]
        exact hsub
      · simp [he]
    · rw [waits_insert]
      by_cases he : b' = b
      · subst he
        simp [hb, and_comm]
      · simp [he]

theorem waits_addDependent {b b' : AlephData Hash} {id id' : ℕ} :
    Waits (addDependent id dependents b) b' id' ↔
      Waits dependents b' id' ∨ (id' = id ∧ b' = b) := by
  unfold addDependent
  rw [waits_insert]
  by_cases he : b' = b
  · subst he
    cases hids : dependents.lookup b' <;> simp [Waits, hids, or_comm]
  · simp [he]

theorem waits_forgetAll {bs : List (AlephData Hash)} {b : AlephData Hash} {id id' : ℕ} :
    Waits (bs.foldl (forgetDependent id) dependents) b id' ↔
      Waits dependents b id' ∧ ¬(id' = id ∧ b ∈ bs) := by
  induction bs generalizing dependents with
  | nil => simp
  | cons c bs ih =>
    rw [List.foldl_cons, ih, waits_forgetDependent, List.mem_cons]
    tauto

theorem waits_addAll {bs : List (AlephData Hash)} {b : AlephData Hash} {id id' : ℕ} :
    Waits (bs.foldl (addDependent id) dependents) b id' ↔
      Waits dependents b id' ∨ (id' = id ∧ b ∈ bs) := by
  induction bs generalizing dependents with
  | nil => simp
  | cons c bs ih =>
    rw [List.foldl_cons, ih, waits_addDependent, List.mem_cons]
    tauto

theorem NoEmptySet.erase (h : NoEmptySet dependents) (b : AlephData Hash) :
    NoEmptySet (dependents.erase b) := by
  intro b' ids hids
  rw [FiniteMap.lookup_erase] at hids
  split at hids
  · cases hids
  · exact h b' ids hids

theorem NoEmptySet.insert (h : NoEmptySet dependents) (b : AlephData Hash) {ids : Finset ℕ}
    (hids : ids ≠ ∅) : NoEmptySet (dependents.insert b ids) := by
  intro b' ids' hids'
  rw [FiniteMap.lookup_insert] at hids'
  split at hids'
  · cases hids'
    exact hids
  · exact h b' ids' hids'

theorem NoEmptySet.forgetAll (h : NoEmptySet dependents) (id : ℕ) (bs : List (AlephData Hash)) :
    NoEmptySet (bs.foldl (forgetDependent id) dependents) := by
  induction bs generalizing dependents with
  | nil => exact h
  | cons b bs ih =>
    apply ih
    unfold forgetDependent
    split
    · exact h
    · split
      · exact h.erase b
      · next hne => exact h.insert b hne

theorem NoEmptySet.addAll (h : NoEmptySet dependents) (id : ℕ) (bs : List (AlephData Hash)) :
    NoEmptySet (bs.foldl (addDependent id) dependents) := by
  induction bs generalizing dependents with
  | nil => exact h
  | cons b bs ih => exact ih (h.insert b (Finset.insert_ne_empty _ _))

end Dependents

variable [AlephNetworkMessage Message Hash]

structure Indexed (surplus : ℕ → ℕ) (store : DataStore Hash Message Cache) : Prop where
  same_keys : ∀ id, (store.messageRequirements.lookup id).isSome ↔
    (store.pendingMessages.lookup id).isSome
  counted : ∀ id k, store.messageRequirements.lookup id = some k →
    0 < k ∧ k = (waitingOn store.dependentMessages id).card + surplus id
  waiting : ∀ b id, Waits store.dependentMessages b id →
    ∃ message, store.pendingMessages.lookup id = some message ∧ b ∈ includedBlocks message
  nonempty : NoEmptySet store.dependentMessages
  recent : ∀ id, (store.pendingMessages.lookup id).isSome →
    id < store.nextMessageId ∧ store.nextMessageId ≤ id + messageIdBoundary

namespace Indexed
variable {surplus : ℕ → ℕ} {store after : DataStore Hash Message Cache}

/-- The invariant says nothing about the cache, the client and the channel. -/
theorem congr (h : Indexed surplus store)
    (hreq : after.messageRequirements = store.messageRequirements)
    (hpend : after.pendingMessages = store.pendingMessages)
    (hdep : after.dependentMessages = store.dependentMessages)
    (hnext : after.nextMessageId = store.nextMessageId) : Indexed surplus after := by
  obtain ⟨h₁, h₂, h₃, h₄, h₅⟩ := h
  constructor
  · rwa [hreq, hpend]
  · rwa [hreq, hdep]
  · rwa [hpend, hdep]
  · rwa [hdep]
  · rwa [hpend, hnext]

theorem counter_of_waits (h : Indexed surplus store) {b : AlephData Hash} {id : ℕ}
    (hb : Waits store.dependentMessages b id) :
    ∃ k, store.messageRequirements.lookup id = some (k + 1) := by
  obtain ⟨message, hmessage, _⟩ := h.waiting b id hb
  obtain ⟨k, hk⟩ := Option.isSome_iff_exists.mp ((h.same_keys id).mpr (by simp [hmessage]))
  have hpos := (h.counted id k hk).1
  exact ⟨k - 1, by rw [hk, Nat.sub_add_cancel hpos]⟩

/-- A message whose counter is one waits for one block at most. -/
theorem eq_of_waits_of_one (h : Indexed surplus store) {b b' : AlephData Hash} {id : ℕ}
    (hone : store.messageRequirements.lookup id = some 1)
    (hb : Waits store.dependentMessages b id) (hb' : Waits store.dependentMessages b' id) :
    b' = b := by
  have hcard : (waitingOn store.dependentMessages id).card ≤ 1 := by
    have hcount := (h.counted id 1 hone).2
    omega
  exact Finset.card_le_one.mp hcard _ (mem_waitingOn.mpr hb') _ (mem_waitingOn.mpr hb)

end Indexed
end AlephNode.DataStore
