import AlephNode.BlockSignatureAggregator
import AlephNode.LabelledRuns

/-!
# The order of multisigned hashes

The aggregator and the reliable multicast, under calls in any order. A call of
`next_multisigned_hash` looks at the head of the queue and waits for the multicast if there
is nothing to return. While it waits it may be cancelled and called again later.
-/
namespace AlephNode

section FirstOccurrences
variable {α : Type*} [DecidableEq α]

/-- One more element changes the list of first occurrences only if it is new. -/
theorem eraseDups_concat (l : List α) (a : α) :
    (l ++ [a]).eraseDups = if a ∈ l then l.eraseDups else l.eraseDups ++ [a] := by
  rw [List.eraseDups_append]
  by_cases hmem : a ∈ l <;> simp [List.removeAll, hmem, List.eraseDups_cons]

theorem nodup_eraseDups (l : List α) : l.eraseDups.Nodup := by
  induction l using List.reverseRecOn with
  | nil => simp
  | append_singleton l a ih =>
    rw [eraseDups_concat]
    split
    · exact ih
    · next hnew =>
      rw [List.nodup_append]
      refine ⟨ih, List.nodup_singleton a, ?_⟩
      intro b hb c hc he
      rw [List.mem_singleton.mp hc] at he
      rw [he, List.mem_eraseDups] at hb
      exact hnew hb

end FirstOccurrences

namespace BlockSignatureAggregator

/-- No call of `next_multisigned_hash` is under way, the call is at the beginning of its
outer loop, or it waits in its inner loop. -/
inductive CallPosition where
  | idle
  | checking
  | waiting

/-- The aggregator with its multicast. `completions` are the multisigned hashes that the
multicast has not yet handed over, the oldest first. -/
structure Aggregation (Hash S : Type) where
  aggregator : BlockSignatureAggregator Hash S
  completions : List (Hash × SignatureSet S)
  position : CallPosition

namespace Aggregation
variable {Hash S : Type}

/-- `closed` is the end of a call that finds its network closed. -/
inductive Event (Hash S : Type) where
  | startAggregation (hash : Hash)
  | notifyLastHash
  | called
  | returned (hash : Hash) (multisignature : SignatureSet S)
  | returnedNone
  | waits
  | completed (hash : Hash) (multisignature : SignatureSet S)
  | received (hash : Hash) (multisignature : SignatureSet S)
  | forwarded
  | closed
  | cancelled

/-- The hashes passed to `start_aggregation`, the oldest first. -/
def startedCalls (events : List (Event Hash S)) : List Hash :=
  (events.filterMap fun
    | .startAggregation hash => some hash
    | _ => none).reverse

/-- What calls of `next_multisigned_hash` returned, the oldest first. -/
def returnedPairs (events : List (Event Hash S)) : List (Hash × SignatureSet S) :=
  (events.filterMap fun
    | .returned hash multisignature => some (hash, multisignature)
    | _ => none).reverse

def returnedHashes (events : List (Event Hash S)) : List Hash :=
  (returnedPairs events).map Prod.fst

/-- What the multicast has completed, the oldest first. -/
def completedPairs (events : List (Event Hash S)) : List (Hash × SignatureSet S) :=
  (events.filterMap fun
    | .completed hash multisignature => some (hash, multisignature)
    | _ => none).reverse

/-- What the multicast has handed over, the oldest first. -/
def receivedPairs (events : List (Event Hash S)) : List (Hash × SignatureSet S) :=
  (events.filterMap fun
    | .received hash multisignature => some (hash, multisignature)
    | _ => none).reverse

variable [DecidableEq Hash]

def new : Aggregation Hash S := ⟨.new, [], .idle⟩

/-- Only the inner loop has points at which a call can be suspended, and the aggregator is
borrowed by a call until it returns or is cancelled. The multicast completes what it
likes at any time. -/
inductive Step : Aggregation Hash S → Event Hash S → Aggregation Hash S → Prop
  | startAggregation {state : Aggregation Hash S} (hash) (idle : state.position = .idle) :
      Step state (.startAggregation hash)
        { state with aggregator := state.aggregator.startAggregation hash }
  | notifyLastHash {state : Aggregation Hash S} (idle : state.position = .idle) :
      Step state .notifyLastHash { state with aggregator := state.aggregator.notifyLastHash }
  | called {state : Aggregation Hash S} (idle : state.position = .idle) :
      Step state .called { state with position := .checking }
  | returned {state : Aggregation Hash S} {aggregator hash multisignature}
      (checking : state.position = .checking)
      (poll : state.aggregator.nextMultisignedHash = (aggregator, .returned hash multisignature)) :
      Step state (.returned hash multisignature)
        { state with aggregator := aggregator, position := .idle }
  | returnedNone {state : Aggregation Hash S} (checking : state.position = .checking)
      (poll : state.aggregator.nextMultisignedHash.2 = .ended) :
      Step state .returnedNone { state with position := .idle }
  | waits {state : Aggregation Hash S} (checking : state.position = .checking)
      (poll : state.aggregator.nextMultisignedHash.2 = .waiting) :
      Step state .waits { state with position := .waiting }
  | completed {state : Aggregation Hash S} (hash multisignature) :
      Step state (.completed hash multisignature)
        { state with completions := state.completions ++ [(hash, multisignature)] }
  | received {state : Aggregation Hash S} {hash multisignature rest}
      (waiting : state.position = .waiting)
      (first : state.completions = (hash, multisignature) :: rest) :
      Step state (.received hash multisignature)
        { aggregator := state.aggregator.multisigned hash multisignature
          completions := rest
          position := .checking }
  | forwarded {state : Aggregation Hash S} (waiting : state.position = .waiting) :
      Step state .forwarded state
  | closed {state : Aggregation Hash S} (waiting : state.position = .waiting) :
      Step state .closed { state with position := .idle }
  | cancelled {state : Aggregation Hash S} (waiting : state.position = .waiting) :
      Step state .cancelled { state with position := .idle }

/-- What calls return one after the other as long as none of them has to wait. -/
def nextMultisignedHashes : ℕ → BlockSignatureAggregator Hash S → List Hash
  | 0, _ => []
  | calls + 1, aggregator =>
    match aggregator.nextMultisignedHash with
    | (aggregator, .returned hash _) => hash :: nextMultisignedHashes calls aggregator
    | (_, .ended) => []
    | (_, .waiting) => []

section Runs
variable {state state' : Aggregation Hash S} {events : List (Event Hash S)}

/-- What was returned and what is queued, is what was started. A signature that was handed
over stays in the map until it is returned. -/
structure Ordered (events : List (Event Hash S)) (state : Aggregation Hash S) : Prop where
  queue : returnedHashes events ++ state.aggregator.hashQueue = (startedCalls events).eraseDups
  started : ∀ hash, hash ∈ state.aggregator.startedHashes ↔ hash ∈ startedCalls events
  handedOver : receivedPairs events ++ state.completions = completedPairs events
  delivered : returnedPairs events ⊆ receivedPairs events
  sound : ∀ hash multisignature, state.aggregator.signatures.lookup hash = some multisignature →
    (hash, multisignature) ∈ receivedPairs events
  kept : ∀ hash multisignature, (hash, multisignature) ∈ receivedPairs events →
    hash ∉ returnedHashes events → ∃ kept, state.aggregator.signatures.lookup hash = some kept
  placed : state.aggregator.lastHashPlaced = true → .notifyLastHash ∈ events
  waiting : state.position = .waiting → state.aggregator.nextMultisignedHash.2 = .waiting

theorem ordered_new : Ordered [] (new : Aggregation Hash S) := by
  constructor <;> simp [new, BlockSignatureAggregator.new, returnedHashes, returnedPairs,
    startedCalls, receivedPairs, completedPairs]

/-- Steps that leave the aggregator and the multicast alone and are on no record. -/
theorem Ordered.congr {event : Event Hash S} (h : Ordered events state)
    (haggregator : state'.aggregator = state.aggregator)
    (hcompletions : state'.completions = state.completions)
    (hstarted : startedCalls (event :: events) = startedCalls events)
    (hreturned : returnedPairs (event :: events) = returnedPairs events)
    (hcompleted : completedPairs (event :: events) = completedPairs events)
    (hreceived : receivedPairs (event :: events) = receivedPairs events)
    (hwaiting : state'.position = .waiting → state.aggregator.nextMultisignedHash.2 = .waiting) :
    Ordered (event :: events) state' := by
  obtain ⟨hqueue, hset, hhanded, hsub, hsound, hkept, hplaced, _⟩ := h
  constructor
  · rwa [returnedHashes, hreturned, haggregator, hstarted]
  · rwa [haggregator, hstarted]
  · rwa [hreceived, hcompletions, hcompleted]
  · rwa [hreturned, hreceived]
  · rwa [haggregator, hreceived]
  · rwa [returnedHashes, haggregator, hreceived, hreturned]
  · intro hlast
    rw [haggregator] at hlast
    exact List.mem_cons_of_mem _ (hplaced hlast)
  · rwa [haggregator]

theorem Ordered.startAggregation (h : Ordered events state) (hash : Hash)
    (idle : state.position = .idle) :
    Ordered (.startAggregation hash :: events)
      { state with aggregator := state.aggregator.startAggregation hash } := by
  obtain ⟨hqueue, hset, hhanded, hsub, hsound, hkept, hplaced, _⟩ := h
  have hcalls : startedCalls (.startAggregation hash :: events) = startedCalls events ++ [hash] := by
    simp [startedCalls]
  by_cases hmem : hash ∈ state.aggregator.startedHashes
  · have hsame : state.aggregator.startAggregation hash = state.aggregator := if_pos hmem
    rw [hsame]
    constructor
    · rw [hcalls, eraseDups_concat, if_pos ((hset hash).mp hmem)]
      exact hqueue
    · intro hash'
      rw [hset, hcalls, List.mem_append, List.mem_singleton]
      constructor
      · exact .inl
      · rintro (hstarted | rfl)
        · exact hstarted
        · exact (hset _).mp hmem
    · exact hhanded
    · exact hsub
    · exact hsound
    · exact hkept
    · exact fun hlast => List.mem_cons_of_mem _ (hplaced hlast)
    · simp [idle]
  · have hnew : state.aggregator.startAggregation hash = { state.aggregator with
        startedHashes := insert hash state.aggregator.startedHashes
        hashQueue := state.aggregator.hashQueue ++ [hash]
        startedRmc := state.aggregator.startedRmc ++ [hash] } := if_neg hmem
    rw [hnew]
    constructor
    · rw [hcalls, eraseDups_concat, if_neg (mt (hset hash).mpr hmem), ← hqueue]
      simp [returnedHashes, returnedPairs]
    · intro hash'
      rw [Finset.mem_insert, hset, hcalls, List.mem_append, List.mem_singleton, or_comm]
    · exact hhanded
    · exact hsub
    · exact hsound
    · exact hkept
    · exact fun hlast => List.mem_cons_of_mem _ (hplaced hlast)
    · simp [idle]

/-- What the poll returns is the head of the queue, with its signature. -/
theorem nextMultisignedHash_returned {aggregator aggregator' : BlockSignatureAggregator Hash S}
    {hash : Hash} {multisignature : SignatureSet S}
    (h : aggregator.nextMultisignedHash = (aggregator', .returned hash multisignature)) :
    ∃ rest, aggregator.hashQueue = hash :: rest ∧
      aggregator.signatures.lookup hash = some multisignature ∧
      aggregator' = { aggregator with
        signatures := aggregator.signatures.erase hash, hashQueue := rest } := by
  unfold nextMultisignedHash at h
  split at h
  · next head rest hqueue =>
    split at h
    · next found hlookup =>
      cases h
      exact ⟨rest, hqueue, hlookup, rfl⟩
    · cases h
  · split at h <;> cases h

theorem Ordered.returned {aggregator : BlockSignatureAggregator Hash S} {hash : Hash}
    {multisignature : SignatureSet S} (h : Ordered events state)
    (poll : state.aggregator.nextMultisignedHash = (aggregator, .returned hash multisignature)) :
    Ordered (.returned hash multisignature :: events)
      { state with aggregator := aggregator, position := .idle } := by
  obtain ⟨hqueue, hset, hhanded, hsub, hsound, hkept, hplaced, _⟩ := h
  obtain ⟨rest, hhead, hlookup, rfl⟩ := nextMultisignedHash_returned poll
  have hpairs : returnedPairs (.returned hash multisignature :: events) =
      returnedPairs events ++ [(hash, multisignature)] := by
    simp [returnedPairs]
  constructor
  · rw [returnedHashes, hpairs]
    rw [hhead] at hqueue
    simpa [returnedHashes, startedCalls] using hqueue
  · exact hset
  · exact hhanded
  · intro pair hmem
    rw [hpairs] at hmem
    rcases List.mem_append.mp hmem with hmem | hmem
    · exact hsub hmem
    · rw [List.mem_singleton.mp hmem]
      exact hsound _ _ hlookup
  · intro hash' multisignature' hfound
    dsimp only at hfound
    rw [FiniteMap.lookup_erase] at hfound
    split at hfound
    · cases hfound
    · exact hsound _ _ hfound
  · intro hash' multisignature' hreceived hopen
    rw [returnedHashes, hpairs, List.map_append, List.mem_append, not_or] at hopen
    have hother : hash' ≠ hash := by simpa using hopen.2
    dsimp only
    rw [FiniteMap.lookup_erase, if_neg hother]
    exact hkept _ _ hreceived hopen.1
  · exact fun hlast => List.mem_cons_of_mem _ (hplaced hlast)
  · intro hposition
    cases hposition

theorem Ordered.received {hash : Hash} {multisignature : SignatureSet S}
    {rest : List (Hash × SignatureSet S)} (h : Ordered events state)
    (first : state.completions = (hash, multisignature) :: rest) :
    Ordered (.received hash multisignature :: events)
      { aggregator := state.aggregator.multisigned hash multisignature
        completions := rest
        position := .checking } := by
  obtain ⟨hqueue, hset, hhanded, hsub, hsound, hkept, hplaced, _⟩ := h
  have hpairs : receivedPairs (.received hash multisignature :: events) =
      receivedPairs events ++ [(hash, multisignature)] := by
    simp [receivedPairs]
  constructor
  · exact hqueue
  · exact hset
  · rw [hpairs]
    rw [first] at hhanded
    simpa [completedPairs] using hhanded
  · rw [hpairs]
    exact fun pair hmem => List.mem_append_left _ (hsub hmem)
  · intro hash' multisignature' hfound
    simp only [multisigned, FiniteMap.lookup_insert] at hfound
    rw [hpairs]
    split at hfound
    · next he =>
      cases hfound
      simp [he]
    · exact List.mem_append_left _ (hsound _ _ hfound)
  · intro hash' multisignature' hreceived hopen
    simp only [multisigned, FiniteMap.lookup_insert]
    split
    · exact ⟨_, rfl⟩
    · next hother =>
      rw [hpairs] at hreceived
      rcases List.mem_append.mp hreceived with hreceived | hreceived
      · exact hkept _ _ hreceived hopen
      · cases List.mem_singleton.mp hreceived
        exact absurd rfl hother
  · exact fun hlast => List.mem_cons_of_mem _ (hplaced hlast)
  · intro hposition
    cases hposition

theorem ordered_step {event : Event Hash S} (h : Ordered events state)
    (hstep : Step state event state') : Ordered (event :: events) state' := by
  cases hstep with
  | startAggregation hash idle => exact h.startAggregation hash idle
  | notifyLastHash idle =>
    obtain ⟨hqueue, hset, hhanded, hsub, hsound, hkept, _, _⟩ := h
    refine ⟨hqueue, hset, hhanded, hsub, hsound, hkept, fun _ => List.mem_cons_self, ?_⟩
    simp [idle]
  | returned checking poll => exact h.returned poll
  | received waiting first => exact h.received first
  | completed hash multisignature =>
    obtain ⟨hqueue, hset, hhanded, hsub, hsound, hkept, hplaced, hwaiting⟩ := h
    refine ⟨hqueue, hset, ?_, hsub, hsound, hkept,
      fun hlast => List.mem_cons_of_mem _ (hplaced hlast), hwaiting⟩
    have hcompleted : completedPairs (.completed hash multisignature :: events) =
        completedPairs events ++ [(hash, multisignature)] := by
      simp [completedPairs]
    rw [hcompleted, ← hhanded, ← List.append_assoc]
    rfl
  | waits checking poll => exact h.congr rfl rfl rfl rfl rfl rfl (fun _ => poll)
  | forwarded waiting => exact h.congr rfl rfl rfl rfl rfl rfl h.waiting
  | _ => exact h.congr rfl rfl rfl rfl rfl rfl (fun hposition => by cases hposition)

theorem ordered_of_run (run : Run Step (new : Aggregation Hash S) events state) :
    Ordered events state := by
  have hinv := run.history_invariant Ordered ordered_new
    (fun _ _ _ _ _ hinv hstep => ordered_step hinv hstep)
  exact hinv

/-- Hashes at the head of the queue whose signatures are there are returned by as many calls. -/
theorem nextMultisignedHashes_ready {aggregator : BlockSignatureAggregator Hash S}
    {ready rest : List Hash} (hqueue : aggregator.hashQueue = ready ++ rest) (hnodup : ready.Nodup)
    (hready : ∀ hash ∈ ready, ∃ kept, aggregator.signatures.lookup hash = some kept) :
    nextMultisignedHashes ready.length aggregator = ready := by
  induction ready generalizing aggregator with
  | nil => rfl
  | cons hash ready ih =>
    obtain ⟨hnew, hnodup⟩ := List.nodup_cons.mp hnodup
    obtain ⟨kept, hkept⟩ := hready hash List.mem_cons_self
    have hpoll : aggregator.nextMultisignedHash = ({ aggregator with
        signatures := aggregator.signatures.erase hash, hashQueue := ready ++ rest },
        .returned hash kept) := by
      simp [nextMultisignedHash, hqueue, hkept]
    rw [List.length_cons, nextMultisignedHashes, hpoll]
    dsimp only
    rw [ih rfl hnodup]
    intro hash' hmem
    have hother : hash' ≠ hash := by
      rintro rfl
      exact hnew hmem
    obtain ⟨kept', hkept'⟩ := hready hash' (List.mem_cons_of_mem _ hmem)
    refine ⟨kept', ?_⟩
    rw [FiniteMap.lookup_erase, if_neg hother, hkept']

theorem nextMultisignedHash_ended {aggregator : BlockSignatureAggregator Hash S}
    (h : aggregator.nextMultisignedHash.2 = .ended) :
    aggregator.hashQueue = [] ∧ aggregator.lastHashPlaced = true := by
  unfold nextMultisignedHash at h
  split at h
  · split at h <;> cases h
  · next hempty =>
    split at h
    · next hplaced => exact ⟨hempty, hplaced⟩
    · cases h

/-- The hashes come in the order in which they were started, each with a signature that the
multicast delivered for it. Cancelled calls lose nothing: what was delivered for the next
hashes is returned by the next calls, none of which waits. A call ends the stream only
after the last hash was announced and all were returned. -/
theorem multisigned_hashes_in_order (run : Run Step (new : Aggregation Hash S) events state) :
    returnedHashes events <+: (startedCalls events).eraseDups ∧
      returnedPairs events ⊆ receivedPairs events ∧
      receivedPairs events ++ state.completions = completedPairs events ∧
      (∀ ready rest, (startedCalls events).eraseDups = returnedHashes events ++ (ready ++ rest) →
        (∀ hash ∈ ready, ∃ multisignature, (hash, multisignature) ∈ receivedPairs events) →
          nextMultisignedHashes ready.length state.aggregator = ready ∧
            (state.position = .waiting → ready = [])) ∧
      ∀ later earlier, events = later ++ .returnedNone :: earlier →
        .notifyLastHash ∈ earlier ∧ returnedHashes earlier = (startedCalls earlier).eraseDups := by
  have hordered := ordered_of_run run
  have hnodup := nodup_eraseDups (startedCalls events)
  refine ⟨⟨_, hordered.queue⟩, hordered.delivered, hordered.handedOver, ?_, ?_⟩
  · intro ready rest hsplit hdelivered
    rw [hsplit] at hnodup
    have hqueue : state.aggregator.hashQueue = ready ++ rest := by
      rw [← hordered.queue] at hsplit
      exact List.append_cancel_left hsplit
    obtain ⟨_, hrest, hapart⟩ := List.nodup_append.mp hnodup
    have hready : ∀ hash ∈ ready, ∃ kept, state.aggregator.signatures.lookup hash = some kept := by
      intro hash hmem
      obtain ⟨multisignature, hreceived⟩ := hdelivered hash hmem
      refine hordered.kept hash multisignature hreceived ?_
      intro hreturned
      exact hapart hash hreturned hash (List.mem_append_left _ hmem) rfl
    refine ⟨nextMultisignedHashes_ready hqueue (List.nodup_append.mp hrest).1 hready, ?_⟩
    intro hposition
    have hwaiting := hordered.waiting hposition
    cases ready with
    | nil => rfl
    | cons hash ready =>
      obtain ⟨kept, hkept⟩ := hready hash List.mem_cons_self
      simp [nextMultisignedHash, hqueue, hkept] at hwaiting
  · rintro later earlier rfl
    obtain ⟨_, hbefore, _⟩ := Run.append_iff.mp run
    obtain ⟨before, hrun, hnone⟩ := Run.cons_iff.mp hbefore
    have hearlier := ordered_of_run hrun
    cases hnone with
    | returnedNone checking poll =>
      obtain ⟨hempty, hplaced⟩ := nextMultisignedHash_ended poll
      refine ⟨hearlier.placed hplaced, ?_⟩
      have hqueue := hearlier.queue
      rwa [hempty, List.append_nil] at hqueue

end Runs

/-- The second hash is completed first; the call that waits for the other one is cancelled. -/
theorem multisigned_hashes_in_order_cancelled :
    [5, 7] <+: [5, 7, 5].eraseDups ∧
      [(5, [some ⟨⟨0⟩, 1⟩]), (7, [some ⟨⟨0⟩, 2⟩])] ⊆
        [(7, ([some ⟨⟨0⟩, 2⟩] : SignatureSet ℕ)), (5, [some ⟨⟨0⟩, 1⟩])] := by
  have hstarted : Run Step (new : Aggregation ℕ ℕ) _ _ :=
    ((Run.refl.tail (.startAggregation 5 rfl)).tail (.startAggregation 7 rfl)).tail
      (.startAggregation 5 rfl)
  have hcompleted := (hstarted.tail (.completed 7 [some ⟨⟨0⟩, 2⟩])).tail (.called rfl)
  have hcancelled := ((hcompleted.tail (.waits rfl rfl)).tail (.received rfl rfl)).tail
    (.waits rfl rfl) |>.tail (.cancelled rfl)
  have hwaiting := ((hcancelled.tail (.called rfl)).tail (.waits rfl rfl)).tail
    (.completed 5 [some ⟨⟨0⟩, 1⟩])
  have hreturned := (hwaiting.tail (.received rfl rfl)).tail (.returned rfl rfl)
  have hrun := (hreturned.tail (.called rfl)).tail (.returned rfl rfl)
  obtain ⟨hstartedOrder, hdelivered, _⟩ := multisigned_hashes_in_order hrun
  exact ⟨hstartedOrder, hdelivered⟩

end Aggregation
end BlockSignatureAggregator
end AlephNode
