import AlephNode.DataStoreHandlers
import AlephNode.MessageLedger

/-!
# Where the messages of the data store go

The data store refines a ledger. Every message that came in was sent once, is pending under
one id, or was forgotten when the message `MESSAGE_ID_BOUNDARY` ids later was registered.
-/
namespace AlephNode.DataStore
open AlephNetworkMessage

variable {Hash Message Cache : Type}

/-- A data store together with what became of every message that came in. -/
structure Ledger (Hash Message Cache : Type) where
  store : DataStore Hash Message Cache
  entries : List (Message × Fate)

def Ledger.Accounted (ledger : Ledger Hash Message Cache) : Prop :=
  AlephNode.Accounted ledger.entries ledger.store.nextMessageId
    ledger.store.pendingMessages.lookup (sentMessages ledger.store)

def KeepsReceiver (_ : DataStore Hash Message Cache) : Event Hash Message → Prop
  | .readyReceiverDropped => False
  | _ => True

/-- The messages that came in, oldest first. The most recent event is the first. -/
def receivedMessages : List (Event Hash Message) → List Message
  | [] => []
  | .received message _ _ :: events => receivedMessages events ++ [message]
  | _ :: events => receivedMessages events

variable [DecidableEq Hash] [AlephNetworkMessage Message Hash]

/-- A message that comes in is sent, or registered under the next id. -/
inductive Enters (store : DataStore Hash Message Cache) :
    Event Hash Message → List (Message × Fate) → Prop
  | sent {message clients order} (position) :
      Enters store (.received message clients order) [(message, .sent position)]
  | registered {message clients order} :
      Enters store (.received message clients order) [(message, .pending store.nextMessageId)]
  | nothing {event} (other : ∀ message clients order, event ≠ .received message clients order) :
      Enters store event []

/-- Forgetting a message leaves all that concerns another one as it is. -/
def ForgetsOnly (id : ℕ) (store : DataStore Hash Message Cache) : Prop :=
  ∀ other, other ≠ id →
    (store.forgetMessage id).pendingMessages.lookup other = store.pendingMessages.lookup other ∧
    (store.forgetMessage id).messageRequirements.lookup other =
      store.messageRequirements.lookup other ∧
    ∀ b, Waits (store.forgetMessage id).dependentMessages b other ↔
      Waits store.dependentMessages b other

variable [BlockCache Cache (AlephData Hash)]

/-- An event moves the entries on, and adds one for a message that comes in. The message
registered under an id is forgotten only as the message with the id that is
`MESSAGE_ID_BOUNDARY` larger is registered. -/
def Ledger.Step (before : Ledger Hash Message Cache) (event : Event Hash Message)
    (after : Ledger Hash Message Cache) : Prop :=
  OrderedStep before.store event after.store ∧
    ∃ moved entered, Advances (fun id => id + messageIdBoundary = before.store.nextMessageId ∧
        after.store.nextMessageId = before.store.nextMessageId + 1) before.entries moved ∧
      Enters before.store event entered ∧ after.entries = moved ++ entered

section Handlers
variable {surplus : ℕ → ℕ} {store middle after : DataStore Hash Message Cache}
  {entries : List (Message × Fate)} {finalizedNumber : ℕ}
  {lookups : List (AlephData Hash × Client Hash)} {requirements : List (AlephData Hash)}

/-- The ledger moves on from one store to another in which the same ids are registered. -/
private def Moves (before after : DataStore Hash Message Cache)
    (entries : List (Message × Fate)) : Prop :=
  after.readyMessages.receiverAlive = true ∧ after.nextMessageId = before.nextMessageId ∧
    ∃ entries', Advances (fun _ => False) entries entries' ∧ Ledger.Accounted ⟨after, entries'⟩

omit [DecidableEq Hash] [AlephNetworkMessage Message Hash] [BlockCache Cache (AlephData Hash)] in
private theorem Moves.refl (halive : store.readyMessages.receiverAlive = true)
    (h : Ledger.Accounted ⟨store, entries⟩) : Moves store store entries :=
  ⟨halive, rfl, entries, .refl _, h⟩

omit [DecidableEq Hash] [AlephNetworkMessage Message Hash] [BlockCache Cache (AlephData Hash)] in
private theorem Moves.trans (h : Moves store middle entries)
    (h' : ∀ entries, middle.readyMessages.receiverAlive = true →
      Ledger.Accounted ⟨middle, entries⟩ → Moves middle after entries) :
    Moves store after entries := by
  obtain ⟨halive, hnext, entries', hadvances, haccounted⟩ := h
  obtain ⟨halive', hnext', entries'', hadvances', haccounted'⟩ := h' entries' halive haccounted
  exact ⟨halive', hnext'.trans hnext, entries'', hadvances.trans hadvances', haccounted'⟩

omit [AlephNetworkMessage Message Hash] in
private theorem Added.moves {b : AlephData Hash} (hadded : Added b store after)
    (halive : store.readyMessages.receiverAlive = true) (h : Ledger.Accounted ⟨store, entries⟩) :
    Moves store after entries := by
  obtain ⟨ids, hnodup, _, hreleased⟩ := hadded
  refine ⟨by rw [hreleased.ready, Channel.sendAll_receiverAlive, halive], hreleased.nextId, ?_⟩
  obtain ⟨entries', hadvances, haccounted⟩ :=
    h.release_all hnodup (fun id => store.messageRequirements.lookup id = some 1)
  refine ⟨entries', hadvances, ?_⟩
  have hpending : after.pendingMessages.lookup = fun id =>
      if id ∈ ids ∧ store.messageRequirements.lookup id = some 1 then none
      else store.pendingMessages.lookup id := funext hreleased.pending
  have hsent : sentMessages after = sentMessages store ++ dueMessages store ids := by
    rw [hreleased.sent, if_pos halive]
    rfl
  rw [Ledger.Accounted, hreleased.nextId, hpending, hsent]
  exact haccounted

omit [AlephNetworkMessage Message Hash] in
private theorem Filtered.moves
    (hfiltered : Filtered finalizedNumber lookups store requirements after)
    (halive : store.readyMessages.receiverAlive = true) (h : Ledger.Accounted ⟨store, entries⟩) :
    Moves store after entries := by
  induction hfiltered generalizing entries with
  | nil => exact .refl halive h
  | cached _ _ ih => exact ih halive h
  | found _ added _ ih => exact (added.moves halive h).trans (fun _ => ih)
  | missing _ _ _ ih => exact ih halive h

omit [AlephNetworkMessage Message Hash] in
private theorem Swept.moves (hswept : Swept finalizedNumber lookups store after)
    (halive : store.readyMessages.receiverAlive = true) (h : Ledger.Accounted ⟨store, entries⟩) :
    Moves store after entries := by
  induction hswept generalizing entries with
  | nil => exact .refl halive h
  | found _ added _ ih => exact (added.moves halive h).trans (fun _ => ih)
  | missing _ _ _ ih => exact ih halive h

omit [DecidableEq Hash] [AlephNetworkMessage Message Hash] [BlockCache Cache (AlephData Hash)] in
private theorem sendReady_accounted {message : Message}
    (halive : store.readyMessages.receiverAlive = true) (h : Ledger.Accounted ⟨store, entries⟩) :
    Ledger.Accounted ⟨store.sendReady message,
      entries ++ [(message, .sent (sentMessages store).length)]⟩ := by
  have hsent : sentMessages (store.sendReady message) = sentMessages store ++ [message] := by
    rw [sentMessages_sendReady, if_pos halive]
  rw [Ledger.Accounted, hsent]
  exact h.deliver message

omit [AlephNetworkMessage Message Hash] [BlockCache Cache (AlephData Hash)] in
private theorem Registered.accounted {message : Message}
    (hreg : Registered message requirements store after) (h : Ledger.Accounted ⟨store, entries⟩) :
    ∃ moved, Advances (fun id => id + messageIdBoundary = store.nextMessageId) entries moved ∧
      Ledger.Accounted ⟨after, moved ++ [(message, .pending store.nextMessageId)]⟩ := by
  have hsent : sentMessages after = sentMessages store := by rw [sentMessages, hreg.ready]; rfl
  have hpending : after.pendingMessages.lookup = Function.update (fun id =>
      if id + messageIdBoundary = store.nextMessageId then none
      else store.pendingMessages.lookup id) store.nextMessageId (some message) := by
    funext id
    rw [hreg.pending, Function.update_apply]
  by_cases hold : messageIdBoundary ≤ store.nextMessageId
  · obtain ⟨old, hnext⟩ := Nat.exists_eq_add_of_le' hold
    refine ⟨_, ⟨_, Fate.redirect_turns (.forgotten hnext.symm), rfl⟩, ?_⟩
    have hforgotten := (h.forget old).register message
    have hsame : (fun id => if id + messageIdBoundary = store.nextMessageId then none
        else store.pendingMessages.lookup id) =
          Function.update store.pendingMessages.lookup old none := by
      funext id
      simp only [Function.update_apply, hnext, Nat.add_right_cancel_iff]
    rw [Ledger.Accounted, hreg.nextId, hsent, hpending, hsame]
    exact hforgotten
  · refine ⟨entries, .refl _, ?_⟩
    have hsame : (fun id => if id + messageIdBoundary = store.nextMessageId then none
        else store.pendingMessages.lookup id) = store.pendingMessages.lookup := by
      funext id
      exact if_neg (by omega)
    rw [Ledger.Accounted, hreg.nextId, hsent, hpending, hsame]
    exact h.register message

omit [DecidableEq Hash] [AlephNetworkMessage Message Hash] [BlockCache Cache (AlephData Hash)] in
private theorem Moves.nothing_enters {event : Event Hash Message} (h : Moves store after entries)
    (hother : ∀ message clients order, event ≠ .received message clients order) :
    after.readyMessages.receiverAlive = true ∧ ∃ moved entered,
      Advances (fun id => id + messageIdBoundary = store.nextMessageId ∧
        after.nextMessageId = store.nextMessageId + 1) entries moved ∧
      Enters store event entered ∧ Ledger.Accounted ⟨after, moved ++ entered⟩ := by
  obtain ⟨halive, _, moved, hadvances, haccounted⟩ := h
  refine ⟨halive, moved, [], hadvances.mono (fun _ => False.elim), .nothing hother, ?_⟩
  rwa [List.append_nil]

private theorem Handled.ledger {event : Event Hash Message}
    (hhandled : Handled store event after) (hkeeps : KeepsReceiver store event)
    (halive : store.readyMessages.receiverAlive = true) (h : Ledger.Accounted ⟨store, entries⟩) :
    after.readyMessages.receiverAlive = true ∧ ∃ moved entered,
      Advances (fun id => id + messageIdBoundary = store.nextMessageId ∧
        after.nextMessageId = store.nextMessageId + 1) entries moved ∧
      Enters store event entered ∧ Ledger.Accounted ⟨after, moved ++ entered⟩ := by
  cases hhandled with
  | @sent message _ _ middle filtered =>
    obtain ⟨halive', hnext, moved, hadvances, haccounted⟩ := filtered.moves halive h
    exact ⟨by simp [sendReady, halive'], moved, _, hadvances.mono (fun _ => False.elim),
      .sent (sentMessages middle).length, sendReady_accounted halive' haccounted⟩
  | @registered message _ _ _ middle _ filtered some_missing registered =>
    obtain ⟨halive', hnext, moved, hadvances, haccounted⟩ := filtered.moves halive h
    obtain ⟨moved', hadvances', haccounted'⟩ := registered.accounted haccounted
    rw [hnext] at hadvances' haccounted'
    have hlarger : after.nextMessageId = store.nextMessageId + 1 := by
      rw [registered.nextId, hnext]
    exact ⟨by rw [registered.ready, halive'], moved', _,
      (hadvances.mono (fun _ => False.elim)).trans (hadvances'.mono (fun _ hid => ⟨hid, hlarger⟩)),
      .registered, haccounted'⟩
  | imported added => exact (added.moves halive h).nothing_enters (by simp)
  | swept swept => exact (swept.moves halive h).nothing_enters (by simp)
  | clientAdvanced client =>
    have hmoves : Moves store { store with client := client } entries :=
      ⟨halive, rfl, entries, .refl _, h⟩
    exact hmoves.nothing_enters (by simp)
  | readyReceiverDropped => exact hkeeps.elim

end Handlers

section Runs
variable {client : Client Hash} {events : List (Event Hash Message)}
  {store : DataStore Hash Message Cache}

private theorem ledger_of_run
    (hrun : Run (Guarded OrderedStep KeepsReceiver) (new client .unbounded) events store) :
    store.readyMessages.receiverAlive = true ∧ ∃ entries,
      Run (EndingIn Ledger.Step Ledger.Accounted) ⟨new client .unbounded, []⟩ events
        ⟨store, entries⟩ ∧ Ledger.Accounted ⟨store, entries⟩ ∧
      entries.map Prod.fst = receivedMessages events := by
  induction hrun with
  | refl => exact ⟨rfl, [], .refl, .empty, rfl⟩
  | @tail events store event after run last ih =>
    obtain ⟨halive, entries, hrun, haccounted, hreceived⟩ := ih
    obtain ⟨hkeeps, hstep⟩ := last
    obtain ⟨surplus, hindexed⟩ := indexed_of_run (run.mono (fun _ _ _ hstep => hstep.2))
    obtain ⟨halive', moved, entered, hadvances, henters, haccounted'⟩ :=
      (orderedStep_handled hindexed hstep).1.ledger hkeeps halive haccounted
    have hledger : Ledger.Step ⟨store, entries⟩ event ⟨after, moved ++ entered⟩ :=
      ⟨hstep, moved, entered, hadvances, henters, rfl⟩
    refine ⟨halive', _, .tail hrun ⟨hledger, haccounted'⟩, haccounted', ?_⟩
    rw [List.map_append, hadvances.map_fst, hreceived]
    cases henters with
    | sent => rfl
    | registered => rfl
    | nothing other =>
      cases event with
      | received message clients order => exact absurd rfl (other message clients order)
      | _ => simp [receivedMessages]

omit [BlockCache Cache (AlephData Hash)] in
private theorem forgetsOnly_registered {surplus : ℕ → ℕ} (h : Indexed surplus store)
    (message : Message) (requirements : List (AlephData Hash)) {id : ℕ}
    (hid : id + messageIdBoundary = store.nextMessageId) :
    ForgetsOnly id (store.registerMessage message requirements) := by
  have hforgotten := forgetMessage_registered h message requirements hid
  intro other hne
  refine ⟨?_, ?_, ?_⟩
  · rw [hforgotten.pending, if_neg hne]
  · rw [hforgotten.requirement, if_neg hne]
  · intro b
    rw [hforgotten.waits]
    exact and_iff_right hne

/-- Every message that came in is in one of three states: it was sent once, as the message
at its position; it is pending under one id; or it was forgotten, when the message with the
id that is `MESSAGE_ID_BOUNDARY` larger was registered. That concerns no other message. -/
theorem messages_accounted
    (hrun : Run (Guarded OrderedStep KeepsReceiver) (new client .unbounded) events store) :
    (∃ entries, Run (EndingIn Ledger.Step Ledger.Accounted) ⟨new client .unbounded, []⟩ events
        ⟨store, entries⟩ ∧ Ledger.Accounted ⟨store, entries⟩ ∧
      entries.map Prod.fst = receivedMessages events) ∧
    ∀ message clients order requirements middle,
      Ordered store (.received message clients order) →
      missingBlocks order store.client.finalizedNumber ((includedBlocks message).zip clients)
        store = .ok (requirements, middle) →
      ∀ id, id + messageIdBoundary = middle.nextMessageId →
        ForgetsOnly id (middle.registerMessage message requirements) := by
  refine ⟨(ledger_of_run hrun).2, ?_⟩
  intro message clients order requirements middle hordered hmissing id hid
  obtain ⟨surplus, hindexed⟩ := indexed_of_run (hrun.mono (fun _ _ _ hstep => hstep.2))
  obtain ⟨requirements', middle', hrun', hfiltered⟩ := missingBlocks_spec hindexed hordered.1
    store.client.finalizedNumber ((includedBlocks message).zip clients)
  rw [hmissing, Except.ok.injEq, Prod.mk.injEq] at hrun'
  obtain ⟨rfl, rfl⟩ := hrun'
  exact forgetsOnly_registered (hfiltered.indexed hindexed) message requirements hid

end Runs

/-- A message waits, another one is sent at once, and then the first is sent too. -/
theorem messages_accounted_two :
    ∃ (store : DataStore ℕ BlockList (LruCache (AlephData ℕ))) (entries : List (BlockList × Fate)),
      (⟨[⟨2, 1⟩]⟩, .sent 1) ∈ entries ∧ (⟨[⟨1, 0⟩]⟩, .sent 0) ∈ entries ∧
        Ledger.Accounted ⟨store, entries⟩ := by
  have hrun : ∃ store : DataStore ℕ BlockList (LruCache (AlephData ℕ)),
      Run (Guarded OrderedStep KeepsReceiver) (new (Client.ofLine 0 0) .unbounded)
        [.imported ⟨2, 1, 1⟩ (fun _ => [0]),
          .received ⟨[⟨1, 0⟩]⟩ [Client.ofLine 0 0] (fun _ => [0]),
          .received ⟨[⟨2, 1⟩]⟩ [Client.ofLine 0 0] (fun _ => [])] store ∧
      sentMessages store = [⟨[⟨1, 0⟩]⟩, ⟨[⟨2, 1⟩]⟩] := by
    refine ⟨_, .tail (.tail (.tail .refl ⟨trivial, ⟨?_, rfl⟩, rfl⟩) ⟨trivial, ⟨?_, rfl⟩, rfl⟩)
      ⟨trivial, ?_, rfl⟩, ?_⟩
    · decide
    · show IsOrderFor _ _
      decide
    · show IsOrderFor _ _
      decide
    · decide
  obtain ⟨store, hrun, hsent⟩ := hrun
  obtain ⟨⟨entries, _, haccounted, _⟩, _⟩ := messages_accounted hrun
  have hfirst : (sentMessages store)[0]? = some ⟨[⟨1, 0⟩]⟩ := by rw [hsent]; rfl
  have hsecond : (sentMessages store)[1]? = some ⟨[⟨2, 1⟩]⟩ := by rw [hsent]; rfl
  exact ⟨store, entries, (haccounted.sent_iff 1 _).mp hsecond, (haccounted.sent_iff 0 _).mp hfirst,
    haccounted⟩

end AlephNode.DataStore
