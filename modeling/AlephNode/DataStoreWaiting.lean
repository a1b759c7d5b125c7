import AlephNode.ReleaseOrder
import AlephNode.WaitingRooms

/-!
# The data store as a waiting room

The maps and counters of the data store implement a waiting room whose items are blocks.
An added block is supplied, a message arrives with the blocks that the filter of
`add_message` leaves, and the room keeps `MESSAGE_ID_BOUNDARY` registrations.
-/
namespace AlephNode.DataStore
open AlephNetworkMessage WaitingRoom WaitingRoom.Operation

variable {Hash Message Cache : Type} [DecidableEq Hash] [AlephNetworkMessage Message Hash]

/-- The room holds what the store holds, and let out what the store sent. -/
structure Represents (surplus : ℕ → ℕ) (store : DataStore Hash Message Cache)
    (room : WaitingRoom (AlephData Hash) Message) : Prop where
  indexed : Indexed surplus store
  registered : room.registered = store.nextMessageId
  waiting : ∀ id, room.waiting id = (store.pendingMessages.lookup id).map
    (fun message => ⟨message, waitingOn store.dependentMessages id, surplus id⟩)
  sent : store.readyMessages.receiverAlive = true →
    (sentMessages store).Perm (room.passed ++ room.served.map Prod.snd)

/-- A data store with the operations that it has performed on its waiting room. -/
structure Traced (Hash Message Cache : Type) where
  store : DataStore Hash Message Cache
  operations : List (Operation (AlephData Hash) Message)

variable [BlockCache Cache (AlephData Hash)]

/-- The blocks that the filter of `add_message` adds, and those that it leaves. A block that
is added goes to the cache before the next one is looked up. -/
def lookUp (finalizedNumber : ℕ) : List (AlephData Hash × Client Hash) → Cache →
    List (AlephData Hash) × List (AlephData Hash)
  | [], _ => ([], [])
  | (b, client) :: rest, cache =>
    if BlockCache.contains cache b then lookUp finalizedNumber rest cache
    else if (client.header b.hash).isSome ∨ b.number ≤ finalizedNumber then
      let (added, required) := lookUp finalizedNumber rest (BlockCache.put cache b)
      (b :: added, required)
    else
      let (added, required) := lookUp finalizedNumber rest cache
      (added, b :: required)

def operations (store : DataStore Hash Message Cache) :
    Event Hash Message → List (Operation (AlephData Hash) Message)
  | .received message clients _ =>
    let (added, required) := lookUp store.client.finalizedNumber
      ((includedBlocks message).zip clients) store.availableBlocks
    added.map .supply ++ [.arrive message required]
  | .imported block _ => [.supply ⟨block.hash, block.number⟩]
  | .maintenance keys clients _ =>
    ((keys.zip clients).filter (fun (b, client) =>
      (client.header b.hash).isSome ∨ b.number ≤ store.client.finalizedNumber)).map
        (fun (b, _) => .supply b)
  | .clientAdvanced _ => []
  | .readyReceiverDropped => []

def Traced.Step (before : Traced Hash Message Cache) (event : Event Hash Message)
    (after : Traced Hash Message Cache) : Prop :=
  OrderedStep before.store event after.store ∧
    after.operations = before.operations ++ before.store.operations event

section Simulation
variable {surplus : ℕ → ℕ} {b : AlephData Hash} {message : Message}
  {room : WaitingRoom (AlephData Hash) Message} {store after : DataStore Hash Message Cache}

omit [BlockCache Cache (AlephData Hash)] in
/-- A message leaves with a block exactly if it misses nothing else and has no surplus. -/
theorem Indexed.due_iff (h : Indexed surplus store) {id : ℕ}
    (hmessage : store.pendingMessages.lookup id = some message) :
    Due b ⟨message, waitingOn store.dependentMessages id, surplus id⟩ ↔
      Waits store.dependentMessages b id ∧ store.messageRequirements.lookup id = some 1 := by
  obtain ⟨k, hk⟩ := Option.isSome_iff_exists.mp ((h.same_keys id).mpr (by simp [hmessage]))
  have hcount := (h.counted id k hk).2
  rw [hk, Option.some.injEq, ← mem_waitingOn]
  constructor
  · rintro ⟨hmissing, hsurplus⟩
    dsimp only at hmissing hsurplus
    rw [hmissing, Finset.card_singleton] at hcount
    exact ⟨by simp [hmissing], by omega⟩
  · rintro ⟨hmem, rfl⟩
    have hpos := Finset.card_pos.mpr ⟨b, hmem⟩
    obtain ⟨c, hmissing⟩ := Finset.card_eq_one.mp
      (show (waitingOn store.dependentMessages id).card = 1 by omega)
    rw [hmissing, Finset.mem_singleton] at hmem
    subst hmem
    exact ⟨hmissing, by dsimp only; omega⟩

theorem Added.represents (hadded : Added b store after) (h : Represents surplus store room) :
    Represents surplus after (room.supply b) := by
  have hwaiting : ∀ id, (room.supply b).waiting id = (after.pendingMessages.lookup id).map
      (fun message => ⟨message, waitingOn after.dependentMessages id, surplus id⟩) := by
    intro id
    have hmissing : waitingOn after.dependentMessages id =
        (waitingOn store.dependentMessages id).erase b := by
      ext c
      simp [mem_waitingOn, hadded.waits, and_comm]
    rw [supply_waiting, h.waiting, hadded.pending, hmissing]
    cases hmessage : store.pendingMessages.lookup id with
    | none => simp
    | some message =>
      rw [Option.map_some, Option.bind_some, takeOff]
      by_cases hdue : Due b ⟨message, waitingOn store.dependentMessages id, surplus id⟩
      · rw [if_pos hdue, if_pos ((h.indexed.due_iff hmessage).mp hdue)]
        rfl
      · rw [if_neg hdue, if_neg (mt (h.indexed.due_iff hmessage).mpr hdue)]
        rfl
  refine ⟨hadded.indexed h.indexed, h.registered.trans hadded.nextId.symm, hwaiting, ?_⟩
  obtain ⟨ids, hpushed, -⟩ := hadded.pushed
  intro halive
  rw [hpushed.alive] at halive
  have hcompleted : ∀ id, ((room.completed b id).map Prod.snd) =
      if id ∈ ids then store.pendingMessages.lookup id else none := by
    intro id
    rw [completed, h.waiting]
    cases hmessage : store.pendingMessages.lookup id with
    | none => simp
    | some message =>
      have hsame := (hpushed.pending id).symm.trans (hadded.pending id)
      rw [hmessage] at hsame
      by_cases hdue : Due b ⟨message, waitingOn store.dependentMessages id, surplus id⟩
      · rw [if_pos ((h.indexed.due_iff hmessage).mp hdue)] at hsame
        have hid : id ∈ ids := by
          by_contra hid
          simp [hid] at hsame
        simp [hdue, hid]
      · rw [if_neg (mt (h.indexed.due_iff hmessage).mpr hdue)] at hsame
        have hid : id ∉ ids := by
          intro hid
          simp [hid] at hsame
        simp [hdue, hid]
  have hids : ids.Perm ((List.range room.registered).filter (· ∈ ids)) := by
    rw [List.perm_ext_iff_of_nodup hpushed.nodup (List.nodup_range.filter _)]
    intro id
    simp only [List.mem_filter, List.mem_range, decide_eq_true_eq, iff_and_self, h.registered]
    intro hid
    exact (h.indexed.recent id (hpushed.held id hid)).1
  have hleave : ((List.range room.registered).filterMap (room.completed b)).map Prod.snd =
      ((List.range room.registered).filter (· ∈ ids)).filterMap store.pendingMessages.lookup := by
    rw [List.map_filterMap, List.filterMap_filter]
    apply List.filterMap_congr
    intro id _
    simpa using hcompleted id
  rw [hpushed.sent, if_pos halive, supply_served, List.map_append, hleave, ← List.append_assoc]
  exact (h.sent halive).append (hids.filterMap _)

omit [BlockCache Cache (AlephData Hash)] in
/-- A message is registered with the requirements that the filter left. -/
theorem Registered.represents {requirements : List (AlephData Hash)}
    (hreg : Registered message requirements store after)
    (hincluded : requirements ⊆ includedBlocks message) (hsome : requirements ≠ [])
    (h : Represents surplus store room) :
    Represents (Function.update surplus store.nextMessageId
      (requirements.length - requirements.toFinset.card)) after
      (room.register messageIdBoundary message requirements) := by
  have hfresh : ∀ b, ¬Waits store.dependentMessages b store.nextMessageId := by
    intro b hb
    obtain ⟨_, hpending, -⟩ := h.indexed.waiting b _ hb
    have hrecent := (h.indexed.recent store.nextMessageId (by simp [hpending])).1
    omega
  refine ⟨hreg.indexed h.indexed hincluded hsome, ?_, ?_, ?_⟩
  · rw [hreg.nextId, ← h.registered]
    rfl
  · intro id
    simp only [register, h.registered, h.waiting, hreg.pending]
    split_ifs with hnew hforgotten
    · subst hnew
      have hmissing : waitingOn after.dependentMessages store.nextMessageId =
          requirements.toFinset := by
        ext b
        simp [mem_waitingOn, hreg.waits, hfresh]
      simp [hmissing]
    · rfl
    · have hmissing : waitingOn after.dependentMessages id =
          waitingOn store.dependentMessages id := by
        ext b
        simp [mem_waitingOn, hreg.waits, hnew, hforgotten]
      rw [hmissing, Function.update_of_ne hnew]
  · intro halive
    rw [hreg.ready] at halive
    have hsent : sentMessages after = sentMessages store := by
      rw [sentMessages, hreg.ready, sentMessages]
    rw [hsent]
    exact h.sent halive

omit [BlockCache Cache (AlephData Hash)] in
theorem Represents.sendReady (h : Represents surplus store room) (message : Message) :
    Represents surplus (store.sendReady message)
      (room.step messageIdBoundary (.arrive message [])) := by
  refine ⟨h.indexed.congr rfl rfl rfl rfl, h.registered, h.waiting, ?_⟩
  intro halive
  have halive' : store.readyMessages.receiverAlive = true := by simpa [DataStore.sendReady] using halive
  rw [sentMessages_sendReady, if_pos halive', WaitingRoom.step, List.append_assoc]
  apply ((h.sent halive').append_right [message]).trans
  rw [List.append_assoc]
  exact List.perm_append_comm.append_left room.passed

omit [BlockCache Cache (AlephData Hash)] in
theorem Represents.withClient (h : Represents surplus store room) (client : Client Hash) :
    Represents surplus { store with client := client } room :=
  ⟨h.indexed.congr rfl rfl rfl rfl, h.registered, h.waiting, h.sent⟩

section Lookups
variable {order : AlephData Hash → List ℕ} {finalizedNumber : ℕ}
  {lookups : List (AlephData Hash × Client Hash)} {requirements : List (AlephData Hash)}

/-- The filter of `add_message` supplies the blocks that it adds, and leaves the others. -/
theorem missingBlocks_represents
    (hrun : missingBlocks order finalizedNumber lookups store = .ok (requirements, after))
    (horder : IsOrderFor order store.dependentMessages) (h : Represents surplus store room) :
    requirements = (lookUp finalizedNumber lookups store.availableBlocks).2 ∧
      Represents surplus after
        ((lookUp finalizedNumber lookups store.availableBlocks).1.foldl supply room) := by
  induction lookups generalizing store room requirements with
  | nil =>
    cases hrun
    exact ⟨rfl, h⟩
  | cons lookup rest ih =>
    obtain ⟨b, client⟩ := lookup
    have hmoved := h.withClient client
    rw [missingBlocks] at hrun
    by_cases hcached : BlockCache.contains store.availableBlocks b = true
    · have hrest : missingBlocks order finalizedNumber rest { store with client := client } =
          .ok (requirements, after) := by simpa [hcached] using hrun
      have hdone := ih hrest horder hmoved
      rwa [lookUp, if_pos hcached]
    · obtain ⟨middle, hadd, hadded, horder'⟩ := addBlock_spec hmoved.indexed horder b
      have hcache : middle.availableBlocks = BlockCache.put store.availableBlocks b := by
        obtain ⟨_, _, _, hreleased⟩ := hadded
        exact hreleased.cache
      by_cases hfound : (client.header b.hash).isSome ∨ b.number ≤ finalizedNumber
      · have hrest : missingBlocks order finalizedNumber rest middle =
            .ok (requirements, after) := by
          rcases hfound with hknown | hnumber
          · simpa [hcached, hknown, hadd] using hrun
          · by_cases hknown : (client.header b.hash).isSome
            · simpa [hcached, hknown, hadd] using hrun
            · simpa [hcached, hknown, hnumber, hadd] using hrun
        rw [lookUp, if_neg hcached, if_pos hfound, ← hcache]
        exact ih hrest horder' (hadded.represents hmoved)
      · obtain ⟨hunknown, hlarge⟩ := not_or.mp hfound
        obtain ⟨required, last, hrest, -⟩ :=
          missingBlocks_spec hmoved.indexed horder finalizedNumber rest
        simp [hcached, hunknown, hlarge, hrest] at hrun
        obtain ⟨rfl, rfl⟩ := hrun
        obtain ⟨hrequired, hrepresents⟩ := ih hrest horder hmoved
        rw [lookUp, if_neg hcached, if_neg hfound]
        exact ⟨congrArg (b :: ·) hrequired, hrepresents⟩

theorem maintain_represents
    (hrun : lookups.foldlM (maintainBlock order finalizedNumber) store = .ok after)
    (horder : IsOrderFor order store.dependentMessages) (h : Represents surplus store room) :
    Represents surplus after ((lookups.filter (fun (b, client) =>
      (client.header b.hash).isSome ∨ b.number ≤ finalizedNumber)).foldl
        (fun room (b, _) => room.supply b) room) := by
  induction lookups generalizing store room with
  | nil =>
    cases hrun
    exact h
  | cons lookup rest ih =>
    obtain ⟨b, client⟩ := lookup
    have hmoved := h.withClient client
    rw [List.foldlM_cons] at hrun
    by_cases hfound : (client.header b.hash).isSome ∨ b.number ≤ finalizedNumber
    · obtain ⟨middle, hadd, hadded, horder'⟩ := addBlock_spec hmoved.indexed horder b
      have hfirst : maintainBlock order finalizedNumber store (b, client) = .ok middle := by
        by_cases hknown : (client.header b.hash).isSome
        · simp [maintainBlock, hknown, hadd]
        · simp [maintainBlock, hknown, hfound.resolve_left hknown, hadd]
      rw [hfirst, ok_bind] at hrun
      rw [List.filter_cons_of_pos (by simpa using hfound), List.foldl_cons]
      exact ih hrun horder' (hadded.represents hmoved)
    · have hfirst : maintainBlock order finalizedNumber store (b, client) =
          .ok { store with client := client } := by
        obtain ⟨hunknown, hlarge⟩ := not_or.mp hfound
        simp [maintainBlock, hunknown, hlarge]
      rw [hfirst, ok_bind] at hrun
      rw [List.filter_cons_of_neg (by simpa using hfound)]
      exact ih hrun horder hmoved

end Lookups
/-- Every handled event performs its operations on the room. -/
theorem OrderedStep.represents {event : Event Hash Message} (hstep : OrderedStep store event after)
    (h : Represents surplus store room) :
    ∃ surplus', Represents surplus' after
      ((store.operations event).foldl (step messageIdBoundary) room) := by
  obtain ⟨hordered, hrun⟩ := hstep
  cases event with
  | received message clients order =>
    obtain ⟨requirements, middle, hmissing, hfiltered⟩ := missingBlocks_spec h.indexed hordered.1
      store.client.finalizedNumber ((includedBlocks message).zip clients)
    obtain ⟨hrequired, hmiddle⟩ := missingBlocks_represents hmissing hordered.1 h
    rw [operations, List.foldl_append, List.foldl_map, ← hrequired]
    cases requirements with
    | nil =>
      rw [handle, addMessage, hmissing] at hrun
      cases hrun
      exact ⟨surplus, hmiddle.sendReady message⟩
    | cons b rest =>
      rw [handle, addMessage, hmissing] at hrun
      cases hrun
      have hincluded : b :: rest ⊆ includedBlocks message := by
        have hsub := hfiltered.requirements_sublist
        rw [List.map_fst_zip hordered.2.ge] at hsub
        exact hsub.subset
      exact ⟨_, (addPendingMessage_spec hmiddle.indexed message (b :: rest)).represents hincluded
        (by simp) hmiddle⟩
  | imported block order =>
    obtain ⟨added, hadd, hadded, -⟩ := addBlock_spec h.indexed hordered ⟨block.hash, block.number⟩
    rw [handle, hadd] at hrun
    cases hrun
    exact ⟨surplus, hadded.represents h⟩
  | maintenance keys clients order =>
    rw [operations, List.foldl_map]
    exact ⟨surplus, maintain_represents hrun hordered.1 h⟩
  | clientAdvanced client =>
    cases hrun
    exact ⟨surplus, h.withClient client⟩
  | readyReceiverDropped =>
    cases hrun
    refine ⟨surplus, h.indexed.congr rfl rfl rfl rfl, h.registered, h.waiting, ?_⟩
    simp [Channel.dropReceiver]

end Simulation

section Runs
variable {client : Client Hash} {events : List (Event Hash Message)}
  {store : DataStore Hash Message Cache} {performed : List (Operation (AlephData Hash) Message)}

theorem OrderedStep.traced {event : Event Hash Message} {after : DataStore Hash Message Cache}
    (hstep : OrderedStep store event after) :
    Traced.Step ⟨store, performed⟩ event ⟨after, performed ++ store.operations event⟩ :=
  ⟨hstep, rfl⟩

theorem traced_of_run (hrun : Run OrderedStep (new client .unbounded) events store) :
    ∃ performed, Run Traced.Step ⟨new client .unbounded, []⟩ events ⟨store, performed⟩ := by
  induction hrun with
  | refl => exact ⟨[], .refl⟩
  | tail run last ih =>
    obtain ⟨performed, hperformed⟩ := ih
    exact ⟨_, hperformed.tail last.traced⟩

/-- The waiting room of a run is the one that its operations lead to. -/
theorem represents_of_run
    (hrun : Run Traced.Step ⟨new client .unbounded, []⟩ events ⟨store, performed⟩) :
    ∃ surplus, Represents surplus store (WaitingRoom.run messageIdBoundary performed) := by
  apply hrun.invariant (fun traced => ∃ surplus, Represents surplus traced.store
    (WaitingRoom.run messageIdBoundary traced.operations))
  · refine ⟨_, indexed_of_empty rfl rfl rfl, rfl, ?_, ?_⟩
    · simp [new, WaitingRoom.run, WaitingRoom.empty]
    · simp [new, sentMessages, Channel.unbounded, WaitingRoom.run, WaitingRoom.empty]
  · rintro before event after ⟨surplus, h⟩ ⟨hstep, hperformed⟩
    rw [hperformed, WaitingRoom.run, List.foldl_append]
    exact hstep.represents h

/-- A message waits exactly until the blocks that it missed when it came in were all added
since, or until `MESSAGE_ID_BOUNDARY` further messages began to wait; one that missed a block
more than once waits for the latter. What was sent are the messages that missed nothing,
and, once each, those whose blocks were all added in time. -/
theorem held_until_supplied
    (hrun : Run Traced.Step ⟨new client .unbounded, []⟩ events ⟨store, performed⟩) :
    (∀ id message, store.pendingMessages.lookup id = some message ↔
      StillWaits messageIdBoundary performed id message) ∧
    (store.readyMessages.receiverAlive = true → ∃ served : List (ℕ × Message), served.Nodup ∧
      (∀ id message, (id, message) ∈ served ↔ GotServed messageIdBoundary performed id message) ∧
      (sentMessages store).Perm (performed.filterMap passing ++ served.map Prod.snd)) := by
  have hbound : 0 < messageIdBoundary := by decide
  obtain ⟨surplus, h⟩ := represents_of_run hrun
  constructor
  · intro id message
    rw [stillWaits_iff]
    simp only [← waiting_run hbound, h.waiting, Option.map_eq_some_iff]
    constructor
    · intro hpending
      exact ⟨_, ⟨message, hpending, rfl⟩, rfl⟩
    · rintro ⟨_, ⟨_, hpending, rfl⟩, rfl⟩
      exact hpending
  · intro halive
    refine ⟨_, nodup_served_run hbound, fun _ _ => mem_served_run hbound, ?_⟩
    rw [← passed_run]
    exact h.sent halive

end Runs

/-- A message misses two blocks and gets them one by one, another one misses nothing. -/
theorem held_until_supplied_two :
    ∃ (store : DataStore ℕ BlockList (LruCache (AlephData ℕ)))
      (performed : List (Operation (AlephData ℕ) BlockList)),
      performed = [.arrive ⟨[⟨2, 1⟩, ⟨3, 2⟩]⟩ [⟨2, 1⟩, ⟨3, 2⟩], .supply ⟨2, 1⟩,
        .arrive ⟨[⟨2, 1⟩]⟩ [], .supply ⟨3, 2⟩] ∧
      (∀ id message, store.pendingMessages.lookup id = some message ↔
        StillWaits messageIdBoundary performed id message) ∧
      ∃ served : List (ℕ × BlockList), served.Nodup ∧
        (∀ id message, (id, message) ∈ served ↔
          GotServed messageIdBoundary performed id message) ∧
        (sentMessages store).Perm (performed.filterMap passing ++ served.map Prod.snd) := by
  have hrun : ∃ (store : DataStore ℕ BlockList (LruCache (AlephData ℕ)))
      (performed : List (Operation (AlephData ℕ) BlockList)),
      Run Traced.Step ⟨new (Client.ofLine 0 0) .unbounded, []⟩
        [.imported ⟨3, 2, 2⟩ (fun _ => [0]),
          .received ⟨[⟨2, 1⟩]⟩ [Client.ofLine 1 0] (fun _ => [0]),
          .imported ⟨2, 1, 1⟩ (fun _ => [0]),
          .received ⟨[⟨2, 1⟩, ⟨3, 2⟩]⟩ [Client.ofLine 0 0, Client.ofLine 0 0] (fun _ => [])]
        ⟨store, performed⟩ ∧ store.readyMessages.receiverAlive = true ∧
      performed = [.arrive ⟨[⟨2, 1⟩, ⟨3, 2⟩]⟩ [⟨2, 1⟩, ⟨3, 2⟩], .supply ⟨2, 1⟩,
        .arrive ⟨[⟨2, 1⟩]⟩ [], .supply ⟨3, 2⟩] := by
    refine ⟨_, _, .tail (.tail (.tail (.tail .refl (OrderedStep.traced ⟨⟨?_, rfl⟩, rfl⟩))
      (OrderedStep.traced ⟨?_, rfl⟩)) (OrderedStep.traced ⟨⟨?_, rfl⟩, rfl⟩))
      (OrderedStep.traced ⟨?_, rfl⟩), ?_, ?_⟩
    · decide
    · show IsOrderFor _ _
      decide
    · decide
    · show IsOrderFor _ _
      decide
    · rfl
    · rfl
  obtain ⟨store, performed, hrun, halive, hperformed⟩ := hrun
  obtain ⟨hpending, hsent⟩ := held_until_supplied hrun
  exact ⟨store, performed, hperformed, hpending, hsent halive⟩

end AlephNode.DataStore
