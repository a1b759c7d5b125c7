import AlephNode.DataStoreAvailability
import AlephNode.ReleaseOrder

/-!
# The cache is only an optimisation

A block is in the cache only if nothing waits for it and the client would find it. So a hit
in the cache changes nothing compared with adding the block again, and stores with different
caches, or with none, hold and send the same messages.
-/
namespace AlephNode

/-- `lru::LruCache` of any capacity, most recently used block first. -/
structure SizedCache (capacity : ℕ) (Block : Type) where
  blocks : List Block
  deriving DecidableEq

instance {capacity : ℕ} {Block : Type} [DecidableEq Block] :
    BlockCache (SizedCache capacity Block) Block where
  empty := ⟨[]⟩
  put c b := ⟨(b :: c.blocks.erase b).take capacity⟩
  contains c b := decide (b ∈ c.blocks)
  contains_empty b := by simp
  contains_put c b b' h := by
    have hmem := List.mem_of_mem_take (of_decide_eq_true h)
    rcases List.mem_cons.mp hmem with rfl | hmem
    · exact .inl rfl
    · exact .inr (decide_eq_true (List.mem_of_mem_erase hmem))

structure NoCache (Block : Type) where
  deriving DecidableEq

instance {Block : Type} : BlockCache (NoCache Block) Block where
  empty := ⟨⟩
  put c _ := c
  contains _ _ := false
  contains_empty _ := rfl
  contains_put _ _ _ h := .inr h

namespace DataStore
open AlephNetworkMessage

variable {Hash Message Cache Cache' : Type} [DecidableEq Hash] [AlephNetworkMessage Message Hash]
  [BlockCache Cache (AlephData Hash)] [BlockCache Cache' (AlephData Hash)]

/-- Events of which two runs may differ only in the orders of iteration. -/
inductive SameEvent : Event Hash Message → Event Hash Message → Prop
  | received (message clients clients' order order') :
      SameEvent (.received message clients order) (.received message clients' order')
  | imported (block order order') : SameEvent (.imported block order) (.imported block order')
  | maintenance (keys keys' clients clients' order order') :
      SameEvent (.maintenance keys clients order) (.maintenance keys' clients' order')
  | clientAdvanced (client) : SameEvent (.clientAdvanced client) (.clientAdvanced client)
  | readyReceiverDropped : SameEvent .readyReceiverDropped .readyReceiverDropped

/-- One event, handled under one state of the client; imported blocks are known to it. -/
abbrev OneClientStep : DataStore Hash Message Cache → Event Hash Message →
    DataStore Hash Message Cache → Prop :=
  Guarded (Guarded Step OneClient) ImportsKnown

/-- Cached blocks are available, and nothing waits for them. -/
structure Freed (store : DataStore Hash Message Cache) : Prop where
  available : ∀ b, BlockCache.contains store.availableBlocks b = true → Available store.client b
  free : ∀ b, BlockCache.contains store.availableBlocks b = true →
    store.dependentMessages.lookup b = none

section Freed
variable {surplus : ℕ → ℕ} {b : AlephData Hash} {client : Client Hash}
  {store after : DataStore Hash Message Cache} {lookups : List (AlephData Hash × Client Hash)}
  {requirements : List (AlephData Hash)} {finalizedNumber : ℕ}

omit [AlephNetworkMessage Message Hash] in
theorem Freed.clientAdvanced (h : Freed store) (hgrows : store.client.Grows client) :
    Freed { store with client := client } where
  available b hb := (h.available b hb).mono hgrows
  free := h.free

omit [AlephNetworkMessage Message Hash] in
theorem Freed.added (h : Freed store) (havailable : Available store.client b)
    (hadded : Added b store after) : Freed after := by
  have hput : ∀ b', BlockCache.contains after.availableBlocks b' = true →
      b' = b ∨ BlockCache.contains store.availableBlocks b' = true := by
    intro b' hb'
    obtain ⟨_, _, _, hreleased⟩ := hadded
    rw [hreleased.cache] at hb'
    exact BlockCache.contains_put _ _ _ hb'
  constructor
  · intro b' hb'
    rw [hadded.client_eq]
    rcases hput b' hb' with rfl | hold
    · exact havailable
    · exact h.available b' hold
  · intro b' hb'
    rw [hadded.dependents, FiniteMap.lookup_erase]
    split
    · rfl
    · next hne => exact h.free b' ((hput b' hb').resolve_left hne)

omit [AlephNetworkMessage Message Hash] in
theorem Freed.checked (h : Freed store)
    (hchecked : Checked finalizedNumber lookups store requirements after) : Freed after :=
  hchecked.invariant Freed (fun _ _ => .clientAdvanced) (fun _ _ _ => .added) h

omit [BlockCache Cache (AlephData Hash)] [AlephNetworkMessage Message Hash] in
theorem lookup_eq_none_iff {dependents : FiniteMap (AlephData Hash) (Finset ℕ)}
    (h : NoEmptySet dependents) : dependents.lookup b = none ↔ ∀ id, ¬Waits dependents b id := by
  constructor
  · rintro hnone id ⟨ids, hids, _⟩
    simp [hnone] at hids
  · intro hfree
    cases hids : dependents.lookup b with
    | none => rfl
    | some ids =>
      obtain ⟨id, hid⟩ := Finset.nonempty_iff_ne_empty.mpr (h b ids hids)
      exact absurd ⟨ids, hids, hid⟩ (hfree id)

omit [AlephNetworkMessage Message Hash] in
/-- A message that waits, waits for blocks that are not in the cache. -/
theorem Freed.registered {message : Message} (h : Freed store)
    (hmissing : ∀ b ∈ requirements, ¬Available store.client b)
    (hnonempty : NoEmptySet store.dependentMessages)
    (hregistered : Registered message requirements store after) : Freed after := by
  constructor
  · rw [hregistered.cache, hregistered.client]
    exact h.available
  · rw [hregistered.cache]
    intro b hb
    rw [lookup_eq_none_iff hregistered.nonempty]
    intro id hwaits
    rcases (hregistered.waits b id).mp hwaits with ⟨_, hmem⟩ | ⟨_, hold⟩
    · exact hmissing b hmem (h.available b hb)
    · exact (lookup_eq_none_iff hnonempty).mp (h.free b hb) id hold

omit [AlephNetworkMessage Message Hash] in
theorem freed_new (client : Client Hash) (ready : Channel (ReadyMessage Hash Message)) :
    Freed (new client ready : DataStore Hash Message Cache) := by
  constructor
  · intro b hb
    simp [new, BlockCache.contains_empty] at hb
  · simp [new]

omit [AlephNetworkMessage Message Hash] in
theorem Checked.client_eq
    (hchecked : Checked finalizedNumber lookups store requirements after)
    (hclients : ∀ l ∈ lookups, l.2 = client) (hstore : store.client = client) :
    after.client = client := by
  induction hchecked with
  | nil => exact hstore
  | cached _ _ _ ih | missing _ _ _ _ ih =>
    exact ih (fun l hl => hclients l (List.mem_cons_of_mem _ hl)) (hclients _ List.mem_cons_self)
  | available _ _ added _ ih =>
    exact ih (fun l hl => hclients l (List.mem_cons_of_mem _ hl))
      (added.client_eq.trans (hclients _ List.mem_cons_self))

omit [AlephNetworkMessage Message Hash] in
/-- With one state of the client, the missing blocks are required. -/
theorem Checked.requirements_eq
    (hchecked : Checked client.finalizedNumber lookups store requirements after)
    (hclients : ∀ l ∈ lookups, l.2 = client) (h : Freed store) :
    requirements = (lookups.map Prod.fst).filter (fun b => ¬Available client b) := by
  induction hchecked with
  | nil => rfl
  | @cached b current _ store _ _ grows hit _ ih =>
    have hcurrent : current = client := hclients _ List.mem_cons_self
    subst hcurrent
    have havailable : Available current b := (h.available _ hit).mono grows
    rw [ih (fun l hl => hclients l (List.mem_cons_of_mem _ hl)) (h.clientAdvanced grows)]
    simp [havailable]
  | @available b current _ _ _ _ _ grows available added _ ih =>
    have hcurrent : current = client := hclients _ List.mem_cons_self
    subst hcurrent
    rw [ih (fun l hl => hclients l (List.mem_cons_of_mem _ hl))
      ((h.clientAdvanced grows).added available added)]
    simp [available]
  | @missing b current _ _ _ _ grows unknown unfinalized _ ih =>
    have hcurrent : current = client := hclients _ List.mem_cons_self
    subst hcurrent
    have hmissing : ¬Available current b := by
      simp only [Available, unknown, Option.isSome_none, Bool.false_eq_true, false_or]
      omega
    rw [ih (fun l hl => hclients l (List.mem_cons_of_mem _ hl)) (h.clientAdvanced grows)]
    simp [hmissing]

/-- The filter of a message does what a maintenance does that visits its blocks: blocks found
in the cache may as well be added again. -/
theorem Checked.swept (hchecked : Checked client.finalizedNumber lookups store requirements after)
    (hclients : ∀ l ∈ lookups, l.2 = client) (h : Freed store) (hindexed : Indexed surplus store) :
    ∃ swept, Swept client.finalizedNumber lookups store swept ∧ Agree swept after := by
  induction hchecked with
  | nil store => exact ⟨store, .nil store, .refl store⟩
  | @cached b current rest store _ _ grows hit tail ih =>
    have hcurrent : current = client := hclients _ List.mem_cons_self
    subst hcurrent
    have hmoved : Indexed surplus { store with client := current } :=
      hindexed.congr rfl rfl rfl rfl
    have havailable : Available current b := (h.available _ hit).mono grows
    obtain ⟨swept, hswept, hagree⟩ :=
      ih (fun l hl => hclients l (List.mem_cons_of_mem _ hl)) (h.clientAdvanced grows) hmoved
    -- nothing waits for a cached block, so adding it changes nothing else
    obtain ⟨middle, hadded⟩ := exists_added hmoved b
    have hsame := hadded.of_free (h.free b hit)
    obtain ⟨order, horder⟩ := exists_order middle.dependentMessages
    obtain ⟨again, _, hagain⟩ :=
      maintain_spec (hadded.indexed hmoved) horder current.finalizedNumber rest
    refine ⟨again, .found havailable hadded hagain, ?_⟩
    have hmiddle : Agree middle { store with client := current } := by
      rw [hsame]
      exact (Agree.refl { store with client := current }).withCaches _ store.availableBlocks
    exact (hmiddle.swept hagain hswept).trans hagree
  | @available b current _ _ _ _ _ grows available added _ ih =>
    have hcurrent : current = client := hclients _ List.mem_cons_self
    subst hcurrent
    have hindexed' := added.indexed (hindexed.congr rfl rfl rfl rfl)
    obtain ⟨swept, hswept, hagree⟩ := ih (fun l hl => hclients l (List.mem_cons_of_mem _ hl))
      ((h.clientAdvanced grows).added available added) hindexed'
    exact ⟨swept, .found available added hswept, hagree⟩
  | missing grows unknown unfinalized _ ih =>
    obtain ⟨swept, hswept, hagree⟩ := ih (fun l hl => hclients l (List.mem_cons_of_mem _ hl))
      (h.clientAdvanced grows) (hindexed.congr rfl rfl rfl rfl)
    exact ⟨swept, .missing unknown unfinalized hswept, hagree⟩

end Freed

section Steps
variable {surplus surplus' : ℕ → ℕ} {store middle after : DataStore Hash Message Cache}
  {other middle' other' : DataStore Hash Message Cache'} {event event' : Event Hash Message}
  {lookups : List (AlephData Hash × Client Hash)}
  {requirements requirements' : List (AlephData Hash)} {client : Client Hash}

theorem Agree.checked (h : Agree store other) (hclients : ∀ l ∈ lookups, l.2 = client)
    (hfreed : Freed store) (hfreed' : Freed other) (hindexed : Indexed surplus store)
    (hindexed' : Indexed surplus' other)
    (hchecked : Checked client.finalizedNumber lookups store requirements after)
    (hchecked' : Checked client.finalizedNumber lookups other requirements' other') :
    requirements = requirements' ∧ Agree after other' := by
  constructor
  · rw [hchecked.requirements_eq hclients hfreed, hchecked'.requirements_eq hclients hfreed']
  · obtain ⟨_, hswept, hleft⟩ := hchecked.swept hclients hfreed hindexed
    obtain ⟨_, hswept', hright⟩ := hchecked'.swept hclients hfreed' hindexed'
    exact hleft.symm.trans ((h.swept hswept hswept').trans hright)

omit [DecidableEq Hash] [AlephNetworkMessage Message Hash] [BlockCache Cache (AlephData Hash)]
  [BlockCache Cache' (AlephData Hash)] in
theorem Agree.sendReady (h : Agree store other) (message : Message) :
    Agree (store.sendReady message) (other.sendReady message) := by
  refine ⟨h.dependents, h.requirements, h.pending, h.nextId, ?_, ?_⟩
  · simp only [DataStore.sendReady, Channel.sendAll_receiverAlive, h.alive]
  · rw [sentMessages_sendReady, sentMessages_sendReady, h.alive]
    exact h.sent.append (.refl _)

omit [BlockCache Cache (AlephData Hash)] [AlephNetworkMessage Message Hash] in
/-- Without empty sets, the waiting messages determine the map. -/
theorem dependents_ext {dependents dependents' : FiniteMap (AlephData Hash) (Finset ℕ)}
    (h : NoEmptySet dependents) (h' : NoEmptySet dependents')
    (hwaits : ∀ b id, Waits dependents b id ↔ Waits dependents' b id) :
    dependents = dependents' := by
  apply Finmap.ext_lookup
  intro b
  cases hids : dependents.lookup b with
  | none =>
    have hfree := (lookup_eq_none_iff h).mp hids
    symm
    rw [lookup_eq_none_iff h']
    intro id hid
    exact hfree id ((hwaits b id).mpr hid)
  | some ids =>
    cases hids' : dependents'.lookup b with
    | none =>
      obtain ⟨id, hid⟩ := Finset.nonempty_iff_ne_empty.mpr (h b ids hids)
      exact absurd ((hwaits b id).mp ⟨ids, hids, hid⟩) ((lookup_eq_none_iff h').mp hids' id)
    | some ids' =>
      congr 1
      ext id
      have hiff := hwaits b id
      simpa [Waits, hids, hids'] using hiff

omit [AlephNetworkMessage Message Hash] [BlockCache Cache (AlephData Hash)]
  [BlockCache Cache' (AlephData Hash)] in
theorem Agree.registered {message : Message} (h : Agree store other)
    (hregistered : Registered message requirements store after)
    (hregistered' : Registered message requirements other other') : Agree after other' := by
  constructor
  · apply dependents_ext hregistered.nonempty hregistered'.nonempty
    intro b id
    rw [hregistered.waits, hregistered'.waits, h.nextId, h.dependents]
  · apply Finmap.ext_lookup
    intro id
    rw [hregistered.requirement, hregistered'.requirement, h.nextId, h.requirements]
  · apply Finmap.ext_lookup
    intro id
    rw [hregistered.pending, hregistered'.pending, h.nextId, h.pending]
  · rw [hregistered.nextId, hregistered'.nextId, h.nextId]
  · rw [hregistered.ready, hregistered'.ready, h.alive]
  · rw [sentMessages, sentMessages, hregistered.ready, hregistered'.ready]
    exact h.sent

omit [DecidableEq Hash] [AlephNetworkMessage Message Hash] [BlockCache Cache (AlephData Hash)] in
/-- When a handler sees one state of the client, every lookup is in this state. -/
theorem zip_replicate {α : Type} {blocks : List α} {clients : List (Client Hash)}
    (hlength : clients.length = blocks.length) (hclients : ∀ c ∈ clients, c = client) :
    blocks.zip clients = blocks.map (fun b => (b, client)) := by
  induction blocks generalizing clients with
  | nil => rfl
  | cons b blocks ih =>
    cases clients with
    | nil => cases hlength
    | cons c clients =>
      obtain ⟨hfirst, hrest⟩ := List.forall_mem_cons.mp hclients
      rw [List.zip_cons_cons, List.map_cons, hfirst, ih (Nat.succ.inj hlength) hrest]

/-- A maintenance of stores that agree, whatever the order in which each visits the keys. -/
theorem Agree.maintained {finalizedNumber : ℕ} {keys keys' : List (AlephData Hash)}
    (h : Agree store other) (hkeys : Enumerates keys store.dependentMessages.keys)
    (hkeys' : Enumerates keys' other.dependentMessages.keys) (hindexed' : Indexed surplus' other)
    (hswept : Swept finalizedNumber (keys.map (fun b => (b, client))) store after)
    (hswept' : Swept finalizedNumber (keys'.map (fun b => (b, client))) other other') :
    Agree after other' := by
  have hperm : keys.Perm keys' := by
    rw [List.perm_ext_iff_of_nodup hkeys.1 hkeys'.1]
    intro b
    rw [hkeys.2, hkeys'.2, h.dependents]
  obtain ⟨order, horder⟩ := exists_order other.dependentMessages
  obtain ⟨_, _, hmiddle⟩ :=
    maintain_spec hindexed' horder finalizedNumber (keys.map (fun b => (b, client)))
  have hright := Swept.perm (hperm.map _) (.refl other) hindexed' hmiddle hswept'
  exact (h.swept hswept hmiddle).trans hright

/-- A handled event leaves nothing waiting for a block that is in the cache. -/
theorem freed_step (h : Freed store) (hindexed : Indexed surplus store)
    (hstep : OneClientStep store event after) : Freed after := by
  obtain ⟨hknown, hone, hstep⟩ := hstep
  have heffect := (step_effect hindexed hstep).1
  cases heffect with
  | sent checked =>
    have hchecked := h.checked checked
    exact ⟨hchecked.available, hchecked.free⟩
  | @registered message clients _ _ _ _ checked _ registered =>
    have hclients : ∀ l ∈ (includedBlocks message).zip clients, l.2 = store.client :=
      fun l hl => hone l.2 (List.of_mem_zip hl).2
    have hmissing := checked.required_missing hclients rfl
    have hmiddle := checked.invariant (Indexed surplus)
      (fun _ _ hs _ => hs.congr rfl rfl rfl rfl) (fun _ _ _ hs _ hadded => hadded.indexed hs) hindexed
    refine (h.checked checked).registered ?_ hmiddle.nonempty registered
    rwa [checked.client_eq hclients rfl]
  | @imported block _ _ added =>
    have hheader : (store.client.header block.hash).isSome := hknown
    exact h.added (.inl hheader) added
  | maintained maintained =>
    exact maintained.invariant Freed (fun _ _ => .clientAdvanced) (fun _ _ _ => .added) h
  | clientAdvanced grows => exact h.clientAdvanced grows
  | readyReceiverDropped => exact ⟨h.available, h.free⟩

/-- Stores that agree, and have the same client, agree after the same event. -/
theorem Agree.step (h : Agree store other) (hclient : store.client = other.client)
    (hfreed : Freed store) (hfreed' : Freed other) (hindexed : Indexed surplus store)
    (hindexed' : Indexed surplus' other) (hsame : SameEvent event event')
    (hstep : OneClientStep store event after) (hstep' : OneClientStep other event' other') :
    Agree after other' ∧ after.client = other'.client := by
  obtain ⟨_, hone, hstep⟩ := hstep
  obtain ⟨_, hone', hstep'⟩ := hstep'
  have hadmissible := hstep.1
  have hadmissible' := hstep'.1
  have heffect := (step_effect hindexed hstep).1
  have heffect' := (step_effect hindexed' hstep').1
  cases hsame with
  | received message clients clients' order order' =>
    have hzip := zip_replicate hadmissible.2.1 hone
    have hzip' := zip_replicate hadmissible'.2.1 hone'
    have hclients : ∀ l ∈ (includedBlocks message).map (fun b => (b, store.client)),
        l.2 = store.client := by simp
    cases heffect with
    | sent checked =>
      rw [hzip] at checked
      cases heffect' with
      | sent checked' =>
        rw [hzip', ← hclient] at checked'
        obtain ⟨_, hagree⟩ :=
          h.checked hclients hfreed hfreed' hindexed hindexed' checked checked'
        have hmiddle := checked.client_eq hclients rfl
        have hmiddle' := checked'.client_eq hclients hclient.symm
        exact ⟨hagree.sendReady message, hmiddle.trans hmiddle'.symm⟩
      | registered checked' some_missing' _ =>
        rw [hzip', ← hclient] at checked'
        obtain ⟨hrequirements, _⟩ :=
          h.checked hclients hfreed hfreed' hindexed hindexed' checked checked'
        exact absurd hrequirements.symm some_missing'
    | registered checked some_missing registered =>
      rw [hzip] at checked
      cases heffect' with
      | sent checked' =>
        rw [hzip', ← hclient] at checked'
        obtain ⟨hrequirements, _⟩ :=
          h.checked hclients hfreed hfreed' hindexed hindexed' checked checked'
        exact absurd hrequirements some_missing
      | registered checked' _ registered' =>
        rw [hzip', ← hclient] at checked'
        obtain ⟨hrequirements, hagree⟩ :=
          h.checked hclients hfreed hfreed' hindexed hindexed' checked checked'
        subst hrequirements
        have hmiddle := checked.client_eq hclients rfl
        have hmiddle' := checked'.client_eq hclients hclient.symm
        refine ⟨hagree.registered registered registered', ?_⟩
        rw [registered.client, registered'.client, hmiddle, hmiddle']
  | imported block order order' =>
    cases heffect with
    | imported added =>
      cases heffect' with
      | imported added' =>
        exact ⟨h.added added added', by rw [added.client_eq, added'.client_eq, hclient]⟩
  | maintenance keys keys' clients clients' order order' =>
    have hzip := zip_replicate hadmissible.2.1.1 hone
    have hzip' := zip_replicate hadmissible'.2.1.1 hone'
    obtain ⟨hhandled, _⟩ := orderedStep_handled hindexed ⟨hadmissible.ordered, hstep.2⟩
    obtain ⟨hhandled', _⟩ := orderedStep_handled hindexed' ⟨hadmissible'.ordered, hstep'.2⟩
    cases heffect with
    | maintained maintained =>
      cases heffect' with
      | maintained maintained' =>
        cases hhandled with
        | swept swept =>
          cases hhandled' with
          | swept swept' =>
            rw [hzip] at swept maintained
            rw [hzip', ← hclient] at swept' maintained'
            refine ⟨h.maintained hadmissible.2.2 hadmissible'.2.2 hindexed' swept swept', ?_⟩
            rw [maintained.client_eq (by simp) rfl, maintained'.client_eq (by simp) hclient.symm]
  | clientAdvanced client =>
    cases heffect
    cases heffect'
    exact ⟨h.withClients client client, rfl⟩
  | readyReceiverDropped =>
    cases heffect
    cases heffect'
    exact ⟨⟨h.dependents, h.requirements, h.pending, h.nextId, rfl, h.sent⟩, hclient⟩

/-- An event that one store can handle, a store that agrees can handle in the same way. -/
theorem Agree.exists_step (h : Agree store other) (hclient : store.client = other.client)
    (hindexed' : Indexed surplus' other) (hstep : OneClientStep store event after) :
    ∃ other', OneClientStep other event other' := by
  obtain ⟨hknown, hone, hadmissible, _⟩ := hstep
  have hadmissible' : Admissible other event := by
    cases event with
    | received | imported | maintenance | clientAdvanced =>
      simpa only [Admissible, h.dependents, hclient] using hadmissible
    | readyReceiverDropped => trivial
  obtain ⟨other', hrun, _⟩ := handle_spec hindexed' hadmissible'.ordered
  refine ⟨other', ?_, ?_, hadmissible', hrun⟩
  · cases event with
    | imported => simpa only [ImportsKnown, hclient] using hknown
    | _ => trivial
  · cases event with
    | received | maintenance => simpa only [OneClient, hclient] using hone
    | _ => trivial

end Steps

section Runs
variable {client : Client Hash} {ready : Channel (ReadyMessage Hash Message)}
  {events events' : List (Event Hash Message)} {store : DataStore Hash Message Cache}
  {other : DataStore Hash Message Cache'}

/-- What holds along every run under one state of the client. -/
theorem indexed_freed_of_run (run : Run OneClientStep (new client ready) events store) :
    (∃ surplus, Indexed surplus store) ∧ Freed store := by
  apply run.invariant (fun s => (∃ surplus, Indexed surplus s) ∧ Freed s)
  · exact ⟨⟨_, indexed_of_empty rfl rfl rfl⟩, freed_new client ready⟩
  · rintro s event t ⟨⟨surplus, hindexed⟩, hfreed⟩ hstep
    exact ⟨(step_effect hindexed hstep.2.2).2, freed_step hfreed hindexed hstep⟩

theorem agree_of_runs (run : Run OneClientStep (new client ready) events store)
    (run' : Run OneClientStep (new client ready) events' other)
    (hsame : List.Forall₂ SameEvent events events') :
    Agree store other ∧ store.client = other.client := by
  induction run generalizing events' other with
  | refl =>
    cases hsame
    cases run'
    exact ⟨⟨rfl, rfl, rfl, rfl, rfl, .refl _⟩, rfl⟩
  | @tail events s event t run last ih =>
    cases hsame with
    | cons hevent hsame =>
      obtain ⟨other, hearlier, hlast⟩ := Run.cons_iff.mp run'
      obtain ⟨hagree, hclient⟩ := ih hearlier hsame
      obtain ⟨⟨_, hindexed⟩, hfreed⟩ := indexed_freed_of_run run
      obtain ⟨⟨_, hindexed'⟩, hfreed'⟩ := indexed_freed_of_run hearlier
      exact hagree.step hclient hfreed hfreed' hindexed hindexed' hevent last hlast

omit [DecidableEq Hash] [AlephNetworkMessage Message Hash] in
theorem sameEvent_refl (event : Event Hash Message) : SameEvent event event := by
  cases event <;> constructor

/-- With another cache the same events can be handled, and after any of them, in whatever
order the maps and sets are iterated, the stores hold the same and have sent the same. -/
theorem cache_only_optimises (run : Run OneClientStep (new client ready) events store) :
    (∃ other : DataStore Hash Message Cache',
      Run OneClientStep (new client ready) events other) ∧
    ∀ (events' : List (Event Hash Message)) (other : DataStore Hash Message Cache'),
      List.Forall₂ SameEvent events events' →
        Run OneClientStep (new client ready) events' other → Agree store other := by
  constructor
  · induction run with
    | refl => exact ⟨_, .refl⟩
    | @tail events s event t run last ih =>
      obtain ⟨other, run'⟩ := ih
      obtain ⟨hagree, hclient⟩ :=
        agree_of_runs run run' (List.forall₂_same.mpr (fun e _ => sameEvent_refl e))
      obtain ⟨⟨_, hindexed'⟩, _⟩ := indexed_freed_of_run run'
      obtain ⟨other', hlast⟩ := hagree.exists_step hclient hindexed' last
      exact ⟨other', run'.tail hlast⟩
  · intro events' other hsame run'
    exact (agree_of_runs run run' hsame).1

end Runs

/-- A message waits for a block that is imported, with the cache of the data store and with
none at all. -/
theorem cache_only_optimises_none :
    ∃ (store : DataStore ℕ BlockList (LruCache (AlephData ℕ)))
      (other : DataStore ℕ BlockList (NoCache (AlephData ℕ))),
      store.readyMessages.messages.map ReadyMessage.message = [⟨[⟨2, 1⟩]⟩] ∧ Agree store other := by
  have hrun : ∃ store : DataStore ℕ BlockList (LruCache (AlephData ℕ)),
      Run OneClientStep (new (Client.ofLine 0 0) .unbounded)
        [.imported ⟨2, 1, 1⟩ (fun _ => [0]), .clientAdvanced (Client.ofLine 1 0),
          .received ⟨[⟨2, 1⟩]⟩ [Client.ofLine 0 0] (fun _ => [])] store ∧
      store.readyMessages.messages.map ReadyMessage.message = [⟨[⟨2, 1⟩]⟩] := by
    refine ⟨_, .tail (.tail (.tail .refl ⟨trivial, ?_, ⟨?_, rfl, ?_⟩, rfl⟩)
      ⟨trivial, trivial, ?_, rfl⟩) ⟨?_, trivial, ?_, rfl⟩, ?_⟩
    · simp [OneClient, new]
    · decide
    · exact .cons_cons (Client.ofLine_grows le_rfl le_rfl) (.singleton _)
    · exact Client.ofLine_grows (by omega) le_rfl
    · rfl
    · show IsOrderFor _ _
      decide
    · decide
  obtain ⟨store, hrun, hsent⟩ := hrun
  obtain ⟨⟨other, hother⟩, hagree⟩ : (∃ other : DataStore ℕ BlockList (NoCache (AlephData ℕ)),
      Run OneClientStep (new (Client.ofLine 0 0) .unbounded) _ other) ∧ _ :=
    cache_only_optimises hrun
  refine ⟨store, other, hsent, ?_⟩
  exact hagree _ other (List.forall₂_same.mpr (fun e _ => sameEvent_refl e)) hother

end DataStore
end AlephNode
