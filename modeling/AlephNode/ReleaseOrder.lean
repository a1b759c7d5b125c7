import AlephNode.DataStoreHandlers

/-!
# The order of releases

Blocks may be added to the data store in any order, and the messages that wait for a block
may be visited in any order: the maps and the messages sent are the same in the end. Only
the cache remembers the order.
-/
namespace AlephNode.DataStore
open AlephNetworkMessage

variable {Hash Message Cache Cache' Cache'' : Type}

/-- The stores differ at most in their caches, in their clients and in the order of the
messages that they sent. -/
structure Agree (store : DataStore Hash Message Cache) (other : DataStore Hash Message Cache') :
    Prop where
  dependents : store.dependentMessages = other.dependentMessages
  requirements : store.messageRequirements = other.messageRequirements
  pending : store.pendingMessages = other.pendingMessages
  nextId : store.nextMessageId = other.nextMessageId
  alive : store.readyMessages.receiverAlive = other.readyMessages.receiverAlive
  sent : (sentMessages store).Perm (sentMessages other)

namespace Agree

theorem refl (store : DataStore Hash Message Cache) : Agree store store :=
  ⟨rfl, rfl, rfl, rfl, rfl, .refl _⟩

theorem symm {store : DataStore Hash Message Cache} {other : DataStore Hash Message Cache'}
    (h : Agree store other) : Agree other store :=
  ⟨h.dependents.symm, h.requirements.symm, h.pending.symm, h.nextId.symm, h.alive.symm,
    h.sent.symm⟩

theorem trans {first : DataStore Hash Message Cache} {second : DataStore Hash Message Cache'}
    {third : DataStore Hash Message Cache''} (h : Agree first second) (h' : Agree second third) :
    Agree first third :=
  ⟨h.dependents.trans h'.dependents, h.requirements.trans h'.requirements,
    h.pending.trans h'.pending, h.nextId.trans h'.nextId, h.alive.trans h'.alive,
    h.sent.trans h'.sent⟩

theorem withClients {store : DataStore Hash Message Cache} {other : DataStore Hash Message Cache'}
    (h : Agree store other) (client client' : Client Hash) :
    Agree { store with client := client } { other with client := client' } :=
  ⟨h.dependents, h.requirements, h.pending, h.nextId, h.alive, h.sent⟩

theorem withCaches {store : DataStore Hash Message Cache} {other : DataStore Hash Message Cache'}
    (h : Agree store other) (cache : Cache) (cache' : Cache') :
    Agree { store with availableBlocks := cache } { other with availableBlocks := cache' } :=
  ⟨h.dependents, h.requirements, h.pending, h.nextId, h.alive, h.sent⟩

end Agree

/-- The messages with the given ids are sent and wait no longer. -/
structure Pushed (ids : List ℕ) (before after : DataStore Hash Message Cache) : Prop where
  nodup : ids.Nodup
  held : ∀ id ∈ ids, (before.pendingMessages.lookup id).isSome
  pending : ∀ id, after.pendingMessages.lookup id =
    if id ∈ ids then none else before.pendingMessages.lookup id
  alive : after.readyMessages.receiverAlive = before.readyMessages.receiverAlive
  sent : sentMessages after = sentMessages before ++
    if before.readyMessages.receiverAlive then ids.filterMap before.pendingMessages.lookup else []

section Pushed
variable {ids ids' : List ℕ} {store middle after : DataStore Hash Message Cache}
  {other other' : DataStore Hash Message Cache'}

theorem Pushed.append (h : Pushed ids store middle) (h' : Pushed ids' middle after) :
    Pushed (ids ++ ids') store after := by
  have hapart : ∀ id ∈ ids', id ∉ ids := by
    intro id hid hmem
    have hheld := h'.held id hid
    rw [h.pending, if_pos hmem] at hheld
    cases hheld
  have hkept : ∀ id ∈ ids', middle.pendingMessages.lookup id = store.pendingMessages.lookup id := by
    intro id hid
    rw [h.pending, if_neg (hapart id hid)]
  constructor
  · rw [List.nodup_append]
    refine ⟨h.nodup, h'.nodup, ?_⟩
    rintro id hid _ hid' rfl
    exact hapart id hid' hid
  · intro id hid
    rcases List.mem_append.mp hid with hid | hid
    · exact h.held id hid
    · rw [← hkept id hid]
      exact h'.held id hid
  · intro id
    rw [h'.pending, h.pending]
    by_cases hid : id ∈ ids <;> simp [hid]
  · rw [h'.alive, h.alive]
  · rw [h'.sent, h.sent, h.alive, List.filterMap_congr hkept]
    cases store.readyMessages.receiverAlive <;> simp

theorem Agree.pushed (h : Agree store other) (hpushed : Pushed ids store after)
    (hpushed' : Pushed ids' other other')
    (hpending : after.pendingMessages = other'.pendingMessages) :
    after.readyMessages.receiverAlive = other'.readyMessages.receiverAlive ∧
      (sentMessages after).Perm (sentMessages other') := by
  have hiff : ∀ id, id ∈ ids ↔ (store.pendingMessages.lookup id).isSome ∧
      after.pendingMessages.lookup id = none := by
    intro id
    rw [hpushed.pending]
    constructor
    · exact fun hid => ⟨hpushed.held id hid, if_pos hid⟩
    · rintro ⟨hheld, hgone⟩
      by_contra hid
      rw [if_neg hid] at hgone
      simp [hgone] at hheld
  have hiff' : ∀ id, id ∈ ids' ↔ (store.pendingMessages.lookup id).isSome ∧
      after.pendingMessages.lookup id = none := by
    intro id
    rw [hpending, hpushed'.pending, h.pending]
    constructor
    · exact fun hid => ⟨hpushed'.held id hid, if_pos hid⟩
    · rintro ⟨hheld, hgone⟩
      by_contra hid
      rw [if_neg hid] at hgone
      simp [hgone] at hheld
  have hperm : ids.Perm ids' := by
    rw [List.perm_ext_iff_of_nodup hpushed.nodup hpushed'.nodup]
    intro id
    rw [hiff, hiff']
  refine ⟨by rw [hpushed.alive, hpushed'.alive, h.alive], ?_⟩
  rw [hpushed.sent, hpushed'.sent, h.alive, h.pending]
  apply h.sent.append
  split
  · exact hperm.filterMap _
  · exact .refl _

end Pushed

variable [DecidableEq Hash] [BlockCache Cache (AlephData Hash)] [BlockCache Cache' (AlephData Hash)]

section Added
variable {b c : AlephData Hash} {store middle after middle' after' : DataStore Hash Message Cache}
  {other other' : DataStore Hash Message Cache'}

/-- Adding a block pushes the messages that missed only this block. -/
theorem Added.pushed (h : Added b store after) : ∃ ids, Pushed ids store after ∧
    ∀ id ∈ ids, store.messageRequirements.lookup id = some 1 := by
  obtain ⟨ids, hnodup, hids, hreleased⟩ := h
  let due : ℕ → Bool := fun id =>
    decide (store.messageRequirements.lookup id = some 1 ∧
      (store.pendingMessages.lookup id).isSome)
  refine ⟨ids.filter due, ?_, ?_⟩
  · constructor
    · exact hnodup.filter _
    · intro id hid
      exact (of_decide_eq_true (List.mem_filter.mp hid).2).2
    · intro id
      rw [hreleased.pending]
      by_cases hone : store.messageRequirements.lookup id = some 1
      · cases hheld : store.pendingMessages.lookup id <;> simp [due, hone, hheld]
      · simp [due, hone]
    · rw [hreleased.ready, Channel.sendAll_receiverAlive]
    · have hdue : dueMessages store ids =
          (ids.filter due).filterMap store.pendingMessages.lookup := by
        rw [List.filterMap_filter]
        apply List.filterMap_congr
        intro id _
        by_cases hone : store.messageRequirements.lookup id = some 1
        · cases hheld : store.pendingMessages.lookup id <;> simp [due, hone, hheld]
        · simp [due, hone]
      rw [hreleased.sent, ← hdue]
      rfl
  · intro id hid
    exact (of_decide_eq_true (List.mem_filter.mp hid).2).1

/-- Blocks added to stores that agree leave stores that agree. -/
theorem Agree.added (h : Agree store other) (hadded : Added b store after)
    (hadded' : Added b other other') : Agree after other' := by
  obtain ⟨_, hpushed, _⟩ := hadded.pushed
  obtain ⟨_, hpushed', _⟩ := hadded'.pushed
  have hpending : after.pendingMessages = other'.pendingMessages := by
    apply Finmap.ext_lookup
    intro id
    rw [hadded.pending, hadded'.pending, h.dependents, h.requirements, h.pending]
  obtain ⟨halive, hsent⟩ := h.pushed hpushed hpushed' hpending
  refine ⟨?_, ?_, hpending, ?_, halive, hsent⟩
  · rw [hadded.dependents, hadded'.dependents, h.dependents]
  · apply Finmap.ext_lookup
    intro id
    rw [hadded.requirement, hadded'.requirement, h.dependents, h.requirements]
  · rw [hadded.nextId, hadded'.nextId, h.nextId]

variable [AlephNetworkMessage Message Hash] {surplus : ℕ → ℕ}

theorem Added.comm (h : Indexed surplus store) (hb : Added b store middle)
    (hc : Added c middle after) (hc' : Added c store middle') (hb' : Added b middle' after') :
    Agree after after' := by
  by_cases hbc : b = c
  · subst hbc
    exact ((Agree.refl store).added hb hc').added hc hb'
  obtain ⟨_, hpushedB, _⟩ := hb.pushed
  obtain ⟨_, hpushedC, _⟩ := hc.pushed
  obtain ⟨_, hpushedC', _⟩ := hc'.pushed
  obtain ⟨_, hpushedB', _⟩ := hb'.pushed
  have hwaitsC : ∀ id, Waits middle.dependentMessages c id ↔ Waits store.dependentMessages c id := by
    intro id
    rw [hb.waits]
    exact and_iff_left (Ne.symm hbc)
  have hwaitsB : ∀ id, Waits middle'.dependentMessages b id ↔ Waits store.dependentMessages b id := by
    intro id
    rw [hc'.waits]
    exact and_iff_left hbc
  have hpending : after.pendingMessages = after'.pendingMessages := by
    apply Finmap.ext_lookup
    intro id
    simp only [hc.pending, hb'.pending, hwaitsC, hwaitsB, hb.pending, hc'.pending, hb.requirement,
      hc'.requirement]
    by_cases hwb : Waits store.dependentMessages b id
    · by_cases hwc : Waits store.dependentMessages c id
      · -- a message that waits for both is not pushed by the first one
        have hmany : store.messageRequirements.lookup id ≠ some 1 := by
          intro hone
          exact hbc (h.eq_of_waits_of_one hone hwc hwb)
        simp [hwb, hwc, hmany]
      · simp [hwb, hwc]
    · simp [hwb]
  obtain ⟨halive, hsent⟩ := (Agree.refl store).pushed (hpushedB.append hpushedC)
    (hpushedC'.append hpushedB') hpending
  refine ⟨?_, ?_, hpending, ?_, halive, hsent⟩
  · rw [hc.dependents, hb'.dependents, hb.dependents, hc'.dependents]
    exact Finmap.erase_erase
  · apply Finmap.ext_lookup
    intro id
    simp only [hc.requirement, hb'.requirement, hwaitsC, hwaitsB, hb.requirement, hc'.requirement]
    by_cases hwb : Waits store.dependentMessages b id <;>
      by_cases hwc : Waits store.dependentMessages c id <;> simp [hwb, hwc]
  · rw [hc.nextId, hb'.nextId, hb.nextId, hc'.nextId]

omit [AlephNetworkMessage Message Hash] in
/-- Adding a block for which nothing waits only touches the cache. -/
theorem Added.of_free (h : Added b store after)
    (hfree : store.dependentMessages.lookup b = none) :
    after = { store with availableBlocks := BlockCache.put store.availableBlocks b } := by
  obtain ⟨ids, _, hids, hreleased⟩ := h
  have hnil : ids = [] := by
    rw [List.eq_nil_iff_forall_not_mem]
    intro id hid
    obtain ⟨waiting, hwaiting, _⟩ := (hids id).mp hid
    simp [hfree] at hwaiting
  subst hnil
  obtain ⟨hrequirements, hpending, hready, hdependents, hcache, hnext, hclient⟩ := hreleased
  have hrequirements' : after.messageRequirements = store.messageRequirements := by
    apply Finmap.ext_lookup
    intro id
    rw [hrequirements]
    simp
  have hpending' : after.pendingMessages = store.pendingMessages := by
    apply Finmap.ext_lookup
    intro id
    rw [hpending]
    simp
  rw [FiniteMap.erase_eq_self hfree] at hdependents
  cases after
  cases store
  simp_all [dueMessages]

omit [AlephNetworkMessage Message Hash] in
theorem Added.again (h : Added b store middle) (h' : Added b middle after) :
    after = { middle with availableBlocks := BlockCache.put middle.availableBlocks b } := by
  apply h'.of_free
  rw [h.dependents, FiniteMap.lookup_erase, if_pos rfl]

end Added

section Maintenance
variable {b c : AlephData Hash} {finalizedNumber : ℕ} {lookup lookup' : AlephData Hash × Client Hash}
  {lookups lookups' : List (AlephData Hash × Client Hash)}
  {store start middle middle' after after' : DataStore Hash Message Cache}
  {other other' : DataStore Hash Message Cache'}

def Visited (finalizedNumber : ℕ) (lookup : AlephData Hash × Client Hash)
    (before after : DataStore Hash Message Cache) : Prop :=
  if (lookup.2.header lookup.1.hash).isSome ∨ lookup.1.number ≤ finalizedNumber then
    Added lookup.1 { before with client := lookup.2 } after
  else after = { before with client := lookup.2 }

theorem swept_cons : Swept finalizedNumber (lookup :: lookups) store after ↔
    ∃ middle, Visited finalizedNumber lookup store middle ∧
      Swept finalizedNumber lookups middle after := by
  obtain ⟨b, client⟩ := lookup
  constructor
  · intro h
    cases h with
    | found found added tail => exact ⟨_, (if_pos found).mpr added, tail⟩
    | missing unknown unfinalized tail =>
      refine ⟨_, (if_neg ?_).mpr rfl, tail⟩
      simp only [unknown, Option.isSome_none, Bool.false_eq_true, false_or]
      omega
  · rintro ⟨middle, hvisited, htail⟩
    unfold Visited at hvisited
    split at hvisited
    · next found => exact .found found hvisited htail
    · next hmissing =>
      obtain ⟨hunknown, hlarge⟩ := not_or.mp hmissing
      subst hvisited
      exact .missing (by simpa using hunknown) (Nat.not_le.mp hlarge) htail

theorem Agree.visited (h : Agree store other) (hvisited : Visited finalizedNumber lookup store after)
    (hvisited' : Visited finalizedNumber lookup other other') : Agree after other' := by
  unfold Visited at hvisited hvisited'
  split at hvisited
  · next found =>
    rw [if_pos found] at hvisited'
    exact (h.withClients _ _).added hvisited hvisited'
  · next hmissing =>
    rw [if_neg hmissing] at hvisited'
    rw [hvisited, hvisited']
    exact h.withClients _ _

theorem Agree.swept (h : Agree store other) (hswept : Swept finalizedNumber lookups store after)
    (hswept' : Swept finalizedNumber lookups other other') : Agree after other' := by
  induction lookups generalizing store other with
  | nil =>
    cases hswept
    cases hswept'
    exact h
  | cons lookup lookups ih =>
    obtain ⟨_, hvisited, htail⟩ := swept_cons.mp hswept
    obtain ⟨_, hvisited', htail'⟩ := swept_cons.mp hswept'
    exact ih (h.visited hvisited hvisited') htail htail'

omit [BlockCache Cache (AlephData Hash)] [BlockCache Cache' (AlephData Hash)] in
/-- The sets of waiting messages can be visited in some order. -/
theorem exists_order (dependents : FiniteMap (AlephData Hash) (Finset ℕ)) :
    ∃ order, IsOrderFor order dependents := by
  refine ⟨fun b => ((dependents.lookup b).getD ∅).toList, ?_⟩
  intro b ids hids
  dsimp only
  rw [hids]
  exact ⟨Finset.nodup_toList _, fun id => Finset.mem_toList⟩

variable [AlephNetworkMessage Message Hash] {surplus : ℕ → ℕ}

theorem exists_added (h : Indexed surplus store) (b : AlephData Hash) :
    ∃ after, Added b store after := by
  obtain ⟨order, horder⟩ := exists_order store.dependentMessages
  obtain ⟨after, _, hadded, _⟩ := addBlock_spec h horder b
  exact ⟨after, hadded⟩

/-- Blocks added one after the other, while the client moves on, may be added in the other
order, also to a store that agrees. -/
theorem Agree.added_comm {clientB clientC clientB' clientC' : Client Hash} (h : Agree store start)
    (hindexed : Indexed surplus store) (hb : Added b { store with client := clientB } middle)
    (hc : Added c { middle with client := clientC } after)
    (hc' : Added c { start with client := clientC' } middle')
    (hb' : Added b { middle' with client := clientB' } after') : Agree after after' := by
  have hstart : Indexed surplus { store with client := clientB } := hindexed.congr rfl rfl rfl rfl
  obtain ⟨_, hcFirst⟩ := exists_added hstart c
  obtain ⟨_, hbSecond⟩ := exists_added (hcFirst.indexed hstart) b
  obtain ⟨_, hcSecond⟩ := exists_added (hb.indexed hstart) c
  have hcomm := Added.comm hstart hb hcSecond hcFirst hbSecond
  have hleft := ((Agree.refl middle).withClients clientC middle.client).added hc hcSecond
  have hmiddle := (h.withClients clientB clientC').added hcFirst hc'
  have hright := (hmiddle.withClients _ clientB').added hbSecond hb'
  exact hleft.trans (hcomm.trans hright)

theorem Visited.indexed (h : Visited finalizedNumber lookup store after)
    (hindexed : Indexed surplus store) : Indexed surplus after := by
  have hmoved : Indexed surplus { store with client := lookup.2 } := hindexed.congr rfl rfl rfl rfl
  unfold Visited at h
  split at h
  · exact h.indexed hmoved
  · rwa [h]

theorem Agree.visited_comm (h : Agree store start) (hindexed : Indexed surplus store)
    (hfirst : Visited finalizedNumber lookup store middle)
    (hsecond : Visited finalizedNumber lookup' middle after)
    (hfirst' : Visited finalizedNumber lookup' start middle')
    (hsecond' : Visited finalizedNumber lookup middle' after') : Agree after after' := by
  unfold Visited at hfirst hsecond hfirst' hsecond'
  split_ifs at hfirst hsecond hfirst' hsecond'
  · exact h.added_comm hindexed hfirst hsecond hfirst' hsecond'
  · subst hsecond hfirst'
    exact ((h.withClients _ _).added hfirst hsecond').withClients _ _
  · subst hfirst hsecond'
    exact ((h.withClients _ _).added hsecond hfirst').withClients _ _
  · subst hfirst hsecond hfirst' hsecond'
    exact h.withClients _ _

/-- The order of the lookups does not matter, if each block is looked up in the same client. -/
theorem Swept.perm (hperm : lookups.Perm lookups') (h : Agree store start)
    (hindexed : Indexed surplus store) (hswept : Swept finalizedNumber lookups store after)
    (hswept' : Swept finalizedNumber lookups' start after') : Agree after after' := by
  induction hperm generalizing store start after after' with
  | nil =>
    cases hswept
    cases hswept'
    exact h
  | cons lookup _ ih =>
    obtain ⟨_, hvisited, htail⟩ := swept_cons.mp hswept
    obtain ⟨_, hvisited', htail'⟩ := swept_cons.mp hswept'
    exact ih (h.visited hvisited hvisited') (hvisited.indexed hindexed) htail htail'
  | swap lookup lookup' rest =>
    obtain ⟨_, hfirst, htail⟩ := swept_cons.mp hswept
    obtain ⟨_, hsecond, htail⟩ := swept_cons.mp htail
    obtain ⟨_, hfirst', htail'⟩ := swept_cons.mp hswept'
    obtain ⟨_, hsecond', htail'⟩ := swept_cons.mp htail'
    exact (h.visited_comm hindexed hfirst hsecond hfirst' hsecond').swept htail htail'
  | trans _ _ ih ih' =>
    obtain ⟨order, horder⟩ := exists_order store.dependentMessages
    obtain ⟨_, _, hmiddle⟩ := maintain_spec hindexed horder finalizedNumber _
    exact (ih (.refl store) hindexed hswept hmiddle).trans (ih' h hindexed hmiddle hswept')

end Maintenance

section Runs
variable [AlephNetworkMessage Message Hash] {client : Client Hash}
  {ready : Channel (ReadyMessage Hash Message)} {events : List (Event Hash Message)}
  {store : DataStore Hash Message Cache}

/-- `add_block`, with the waiting messages visited in some order. -/
def AddsBlock (b : AlephData Hash) (store after : DataStore Hash Message Cache) : Prop :=
  ∃ order, IsOrderFor order store.dependentMessages ∧ store.addBlock order b = .ok after

omit [BlockCache Cache' (AlephData Hash)] in
theorem AddsBlock.added {surplus : ℕ → ℕ} {b : AlephData Hash}
    {after : DataStore Hash Message Cache} (h : AddsBlock b store after)
    (hindexed : Indexed surplus store) : Added b store after := by
  obtain ⟨order, horder, hrun⟩ := h
  obtain ⟨after', hrun', hadded, _⟩ := addBlock_spec hindexed horder b
  rw [hrun, Except.ok.injEq] at hrun'
  rwa [hrun']

/-- In every store that a run can reach, adding blocks does not panic, their order does not
matter, and adding a block again only touches the cache. So the maps and the messages sent
after a maintenance do not depend on the orders in which it visits keys and messages. -/
theorem release_order_irrelevant (run : Run OrderedStep (new client ready) events store) :
    (∀ b order, IsOrderFor order store.dependentMessages →
      ∃ middle, store.addBlock order b = .ok middle ∧
        ∀ c order', IsOrderFor order' middle.dependentMessages →
          ∃ after, middle.addBlock order' c = .ok after) ∧
    (∀ b c middle after middle' after', AddsBlock b store middle → AddsBlock c middle after →
      AddsBlock c store middle' → AddsBlock b middle' after' → Agree after after') ∧
    (∀ b middle after, AddsBlock b store middle → AddsBlock b middle after → after =
      { middle with availableBlocks := BlockCache.put middle.availableBlocks b }) ∧
    ∀ order order' keys keys' clients clients', IsOrderFor order store.dependentMessages →
      IsOrderFor order' store.dependentMessages → (keys.zip clients).Perm (keys'.zip clients') →
        ∃ after after', store.maintain order keys clients = .ok after ∧
          store.maintain order' keys' clients' = .ok after' ∧ Agree after after' := by
  obtain ⟨surplus, hindexed⟩ := indexed_of_run run
  refine ⟨?_, ?_, ?_, ?_⟩
  · intro b order horder
    obtain ⟨middle, hrun, hadded, _⟩ := addBlock_spec hindexed horder b
    refine ⟨middle, hrun, ?_⟩
    intro c order' horder'
    obtain ⟨after, hrun', _⟩ := addBlock_spec (hadded.indexed hindexed) horder' c
    exact ⟨after, hrun'⟩
  · intro b c middle after middle' after' hb hc hc' hb'
    have hfirst := hb.added hindexed
    have hfirst' := hc'.added hindexed
    exact Added.comm hindexed hfirst (hc.added (hfirst.indexed hindexed)) hfirst'
      (hb'.added (hfirst'.indexed hindexed))
  · intro b middle after hb hagain
    have hfirst := hb.added hindexed
    exact hfirst.again (hagain.added (hfirst.indexed hindexed))
  · intro order order' keys keys' clients clients' horder horder' hperm
    obtain ⟨after, hrun, hswept⟩ :=
      maintain_spec hindexed horder store.client.finalizedNumber (keys.zip clients)
    obtain ⟨after', hrun', hswept'⟩ :=
      maintain_spec hindexed horder' store.client.finalizedNumber (keys'.zip clients')
    exact ⟨after, after', hrun, hrun', Swept.perm hperm (.refl store) hindexed hswept hswept'⟩

end Runs

/-- A message that mentions two missing blocks, one of them twice: it is stuck whatever the
order in which a maintenance visits the two. -/
theorem release_order_irrelevant_waiting :
    ∃ store after after' : DataStore ℕ BlockList (LruCache (AlephData ℕ)),
      store.maintain (fun _ => [0]) [⟨2, 1⟩, ⟨3, 2⟩] [Client.ofLine 2 0, Client.ofLine 2 0] =
        .ok after ∧
      store.maintain (fun _ => [0]) [⟨3, 2⟩, ⟨2, 1⟩] [Client.ofLine 2 0, Client.ofLine 2 0] =
        .ok after' ∧
      after.messageRequirements.lookup 0 = some 1 ∧ Agree after after' := by
  have hrun : ∃ store : DataStore ℕ BlockList (LruCache (AlephData ℕ)),
      Run OrderedStep (new (Client.ofLine 0 0) .unbounded)
        [.received ⟨[⟨2, 1⟩, ⟨3, 2⟩, ⟨3, 2⟩]⟩ (List.replicate 3 (Client.ofLine 0 0))
            (fun _ => [])] store ∧
      IsOrderFor (fun _ => [0]) store.dependentMessages ∧
      ∀ after, store.maintain (fun _ => [0]) [⟨2, 1⟩, ⟨3, 2⟩]
        [Client.ofLine 2 0, Client.ofLine 2 0] = .ok after →
          after.messageRequirements.lookup 0 = some 1 := by
    refine ⟨_, .tail .refl ⟨⟨?_, rfl⟩, rfl⟩, ?_, ?_⟩
    · decide
    · show IsOrderFor _ _
      decide
    · rintro after ⟨⟩
      decide
  obtain ⟨store, hrun, horder, hstuck⟩ := hrun
  obtain ⟨_, _, _, hmaintain⟩ := release_order_irrelevant hrun
  obtain ⟨after, after', hafter, hafter', hagree⟩ := hmaintain (fun _ => [0]) (fun _ => [0])
    [⟨2, 1⟩, ⟨3, 2⟩] [⟨3, 2⟩, ⟨2, 1⟩] [Client.ofLine 2 0, Client.ofLine 2 0]
    [Client.ofLine 2 0, Client.ofLine 2 0] horder horder (.swap _ _ _)
  exact ⟨store, after, after', hafter, hafter', hstuck after hafter, hagree⟩

end AlephNode.DataStore
