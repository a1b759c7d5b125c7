import AlephNode.DataStoreHandlers

/-!
# Availability of forwarded and of waiting messages

The data store forwards a message only when all blocks that it mentions are available.
Conversely, a maintenance leaves no message behind whose blocks are all available, unless
the message mentioned a missing block more than once when it came in: such a block is
counted once for every mention, but is subtracted once.
-/
namespace AlephNode.DataStore
open AlephNetworkMessage

variable {Hash Message Cache : Type} [DecidableEq Hash]

omit [DecidableEq Hash] in
theorem Available.mono {before after : Client Hash} {b : AlephData Hash}
    (hgrows : before.Grows after) (h : Available before b) : Available after b := by
  rcases h with hknown | hnumber
  · obtain ⟨header, hheader⟩ := Option.isSome_iff_exists.mp hknown
    exact .inl (by simp [hgrows.headers _ _ hheader])
  · exact .inr (hnumber.trans hgrows.finalized)

variable [AlephNetworkMessage Message Hash] [BlockCache Cache (AlephData Hash)]

def AllAvailable (client : Client Hash) (message : Message) : Prop :=
  ∀ b ∈ includedBlocks message, Available client b

/-- Cached blocks are available, waiting messages wait for all of their missing blocks, and
the messages sent were available when they were sent. -/
structure Sound (store : DataStore Hash Message Cache) : Prop where
  cached : ∀ b, BlockCache.contains store.availableBlocks b = true → Available store.client b
  covered : ∀ id message, store.pendingMessages.lookup id = some message →
    ∀ b ∈ includedBlocks message,
      Waits store.dependentMessages b id ∨ Available store.client b
  sent : ∀ r ∈ store.readyMessages.messages, AllAvailable r.sentUnder r.message

/-- Import notifications name blocks whose header the client knows. -/
def ImportsKnown (store : DataStore Hash Message Cache) : Event Hash Message → Prop
  | .imported block _ => (store.client.header block.hash).isSome
  | _ => True

section Sound
variable {surplus : ℕ → ℕ} {b : AlephData Hash} {store after : DataStore Hash Message Cache}

theorem Sound.clientAdvanced (h : Sound store) {client : Client Hash}
    (hgrows : store.client.Grows client) : Sound { store with client := client } where
  cached b hb := (h.cached b hb).mono hgrows
  covered id message hm b hb := (h.covered id message hm b hb).imp_right (·.mono hgrows)
  sent := h.sent

/-- A message that leaves with the added block has no other block to wait for. -/
theorem Sound.added (h : Sound store) (hindexed : Indexed surplus store)
    (havailable : Available store.client b) (hadded : Added b store after) : Sound after := by
  have hclient := hadded.client_eq
  constructor
  · intro b' hb'
    obtain ⟨_, _, _, hreleased⟩ := hadded
    rw [hreleased.cache] at hb'
    rw [hclient]
    rcases BlockCache.contains_put _ _ _ hb' with rfl | hb'
    · exact havailable
    · exact h.cached b' hb'
  · intro id message hmessage b' hb'
    rw [hadded.pending] at hmessage
    split at hmessage
    · cases hmessage
    · rw [hadded.waits, hclient]
      rcases h.covered id message hmessage b' hb' with hwaits | hknown
      · by_cases he : b' = b
        · exact .inr (he ▸ havailable)
        · exact .inl ⟨hwaits, he⟩
      · exact .inr hknown
  · intro r hr
    obtain ⟨ids, _, hids, hreleased⟩ := hadded
    obtain ⟨sent, hsent, hsub⟩ := Channel.sendAll_messages store.readyMessages
      ((dueMessages { store with
        dependentMessages := store.dependentMessages.erase b
        availableBlocks := BlockCache.put store.availableBlocks b } ids).map (⟨·, store.client⟩))
    rw [hreleased.ready, hsent] at hr
    rcases List.mem_append.mp hr with hr | hr
    · exact h.sent r hr
    · obtain ⟨message, hdue, rfl⟩ := List.mem_map.mp (hsub hr)
      obtain ⟨id, hid, hpending⟩ := List.mem_filterMap.mp hdue
      split at hpending
      · next hone =>
        intro b' hb'
        rcases h.covered id message hpending b' hb' with hwaits | hknown
        · rw [hindexed.eq_of_waits_of_one hone ((hids id).mp hid) hwaits]
          exact havailable
        · exact hknown
      · cases hpending

theorem Sound.sendReady (h : Sound store) {message : Message}
    (hmessage : AllAvailable store.client message) : Sound (store.sendReady message) where
  cached := h.cached
  covered := h.covered
  sent := by
    intro r hr
    obtain ⟨sent, hsent, hsub⟩ := Channel.sendAll_messages store.readyMessages
      [⟨message, store.client⟩]
    rw [DataStore.sendReady, hsent] at hr
    rcases List.mem_append.mp hr with hr | hr
    · exact h.sent r hr
    · rw [List.mem_singleton.mp (hsub hr)]
      exact hmessage

theorem Sound.registered (h : Sound store) {message : Message}
    {requirements : List (AlephData Hash)}
    (hmessage : ∀ b ∈ includedBlocks message, b ∈ requirements ∨ Available store.client b)
    (hreg : Registered message requirements store after) : Sound after := by
  constructor
  · rw [hreg.cache, hreg.client]
    exact h.cached
  · intro id m hm b hb
    rw [hreg.pending] at hm
    rw [hreg.waits, hreg.client]
    split_ifs at hm with hnew hforgotten
    · cases hm
      exact (hmessage b hb).imp_left (fun hmem => .inl ⟨hnew, hmem⟩)
    · exact (h.covered id m hm b hb).imp_left (fun hwaits => .inr ⟨hforgotten, hwaits⟩)
  · rw [hreg.ready]
    exact h.sent

private theorem lookup_sound {s t : DataStore Hash Message Cache} {b : AlephData Hash}
    (h : Indexed surplus s ∧ Sound s) (havailable : Available s.client b) (hadded : Added b s t) :
    Indexed surplus t ∧ Sound t :=
  ⟨hadded.indexed h.1, h.2.added h.1 havailable hadded⟩

private theorem client_sound {s : DataStore Hash Message Cache} {client : Client Hash}
    (h : Indexed surplus s ∧ Sound s) (hgrows : s.client.Grows client) :
    Indexed surplus { s with client := client } ∧ Sound { s with client := client } :=
  ⟨h.1.congr rfl rfl rfl rfl, h.2.clientAdvanced hgrows⟩

section Lookups
variable {finalizedNumber : ℕ} {lookups : List (AlephData Hash × Client Hash)}
  {requirements : List (AlephData Hash)}

theorem Checked.sound (hchecked : Checked finalizedNumber lookups store requirements after)
    (hindexed : Indexed surplus store) (h : Sound store) : Indexed surplus after ∧ Sound after :=
  hchecked.invariant (fun s => Indexed surplus s ∧ Sound s)
    (fun _ _ => client_sound) (fun _ _ _ => lookup_sound) ⟨hindexed, h⟩

theorem Maintained.sound (hmaintained : Maintained finalizedNumber lookups store after)
    (hindexed : Indexed surplus store) (h : Sound store) : Indexed surplus after ∧ Sound after :=
  hmaintained.invariant (fun s => Indexed surplus s ∧ Sound s)
    (fun _ _ => client_sound) (fun _ _ _ => lookup_sound) ⟨hindexed, h⟩

omit [AlephNetworkMessage Message Hash] in
theorem Checked.still_available
    (hchecked : Checked finalizedNumber lookups store requirements after)
    (h : Available store.client b) : Available after.client b :=
  hchecked.invariant (fun s => Available s.client b)
    (fun _ _ hs hgrows => hs.mono hgrows) (fun _ _ _ hs _ hadded => hadded.client_eq ▸ hs) h

/-- Every block is either required or available when the filter is through. -/
theorem Checked.required_or_available
    (hchecked : Checked finalizedNumber lookups store requirements after)
    (hindexed : Indexed surplus store) (h : Sound store) :
    ∀ b ∈ lookups.map Prod.fst, b ∈ requirements ∨ Available after.client b := by
  induction hchecked with
  | nil => simp
  | cached grows hit tail ih =>
    obtain ⟨hindexed', hsound'⟩ := client_sound ⟨hindexed, h⟩ grows
    intro b hb
    rcases List.mem_cons.mp hb with rfl | hb
    · exact .inr (tail.still_available (hsound'.cached _ hit))
    · exact ih hindexed' hsound' b hb
  | available grows available added tail ih =>
    obtain ⟨hindexed', hsound'⟩ :=
      lookup_sound (client_sound ⟨hindexed, h⟩ grows) available added
    intro b hb
    rcases List.mem_cons.mp hb with rfl | hb
    · exact .inr (tail.still_available (added.client_eq ▸ available))
    · exact ih hindexed' hsound' b hb
  | missing grows _ _ tail ih =>
    obtain ⟨hindexed', hsound'⟩ := client_sound ⟨hindexed, h⟩ grows
    intro b hb
    rcases List.mem_cons.mp hb with rfl | hb
    · exact .inl List.mem_cons_self
    · exact (ih hindexed' hsound' b hb).imp_left (List.mem_cons_of_mem _)

end Lookups

theorem Effect.sound {event : Event Hash Message} (heffect : Effect store event after)
    (hadmissible : Admissible store event) (hknown : ImportsKnown store event)
    (hindexed : Indexed surplus store) (h : Sound store) : Sound after := by
  cases heffect with
  | @sent message clients order middle checked =>
    have hblocks : ((includedBlocks message).zip clients).map Prod.fst = includedBlocks message :=
      List.map_fst_zip (hadmissible.2.1.ge)
    apply (checked.sound hindexed h).2.sendReady
    intro b hb
    have hcovered := checked.required_or_available hindexed h b (by rwa [hblocks])
    simpa using hcovered
  | @registered message clients order requirements middle after checked _ registered =>
    have hblocks : ((includedBlocks message).zip clients).map Prod.fst = includedBlocks message :=
      List.map_fst_zip (hadmissible.2.1.ge)
    refine (checked.sound hindexed h).2.registered (fun b hb => ?_) registered
    exact checked.required_or_available hindexed h b (by rwa [hblocks])
  | @imported block order after added =>
    have hheader : (store.client.header block.hash).isSome := hknown
    exact h.added hindexed (.inl hheader) added
  | maintained maintained => exact (maintained.sound hindexed h).2
  | clientAdvanced grows => exact h.clientAdvanced grows
  | readyReceiverDropped => exact ⟨h.cached, h.covered, h.sent⟩

end Sound

/-- Every message was available when it was sent: its blocks had known headers or were not
above the finalized number. -/
theorem ready_messages_available {client : Client Hash}
    {events : List (Event Hash Message)} {store : DataStore Hash Message Cache}
    (hrun : Run (Guarded Step ImportsKnown) (new client .unbounded) events store) :
    ∀ r ∈ store.readyMessages.messages, ∀ b ∈ includedBlocks r.message,
      Available r.sentUnder b := by
  have hinv : (∃ surplus, Indexed surplus store) ∧ Sound store := by
    apply hrun.invariant (fun s => (∃ surplus, Indexed surplus s) ∧ Sound s)
    · refine ⟨⟨_, indexed_of_empty rfl rfl rfl⟩, ?_, ?_, ?_⟩
      · intro b hb
        simp [new, BlockCache.contains_empty] at hb
      · simp [new]
      · simp [new, Channel.unbounded]
    · rintro s event t ⟨⟨surplus, hindexed⟩, hsound⟩ ⟨hknown, hstep⟩
      obtain ⟨heffect, hindexed'⟩ := step_effect hindexed hstep
      exact ⟨hindexed', heffect.sound hstep.1 hknown hindexed hsound⟩
  exact hinv.2.sent

/-- A message waits for two blocks, the first of which is imported; after both are known a
maintenance sends it. -/
theorem ready_messages_available_after_import :
    ∃ store : DataStore ℕ BlockList (LruCache (AlephData ℕ)),
      store.readyMessages.messages.map ReadyMessage.message = [⟨[⟨2, 1⟩, ⟨3, 2⟩]⟩] ∧
        ∀ r ∈ store.readyMessages.messages, ∀ b ∈ includedBlocks r.message,
          Available r.sentUnder b := by
  have hrun : ∃ store : DataStore ℕ BlockList (LruCache (AlephData ℕ)),
      Run (Guarded Step ImportsKnown) (new (Client.ofLine 0 0) .unbounded)
        [.maintenance [⟨3, 2⟩] [Client.ofLine 2 0] (fun _ => [0]),
          .clientAdvanced (Client.ofLine 2 0),
          .imported ⟨2, 1, 1⟩ (fun _ => [0]),
          .clientAdvanced (Client.ofLine 1 0),
          .received ⟨[⟨2, 1⟩, ⟨3, 2⟩]⟩ [Client.ofLine 0 0, Client.ofLine 0 0] (fun _ => [])] store ∧
      store.readyMessages.messages.map ReadyMessage.message = [⟨[⟨2, 1⟩, ⟨3, 2⟩]⟩] := by
    refine ⟨_, .tail (.tail (.tail (.tail (.tail .refl ⟨trivial, ⟨?_, rfl, ?_⟩, rfl⟩)
      ⟨trivial, ?_, rfl⟩) ⟨?_, ?_, rfl⟩) ⟨trivial, ?_, rfl⟩)
      ⟨trivial, ⟨?_, ⟨rfl, ?_⟩, ?_⟩, rfl⟩, ?_⟩
    · decide
    · exact .cons_cons (Client.ofLine_grows le_rfl le_rfl)
        (.cons_cons (Client.ofLine_grows le_rfl le_rfl) (.singleton _))
    · exact Client.ofLine_grows (by omega) le_rfl
    · rfl
    · show IsOrderFor _ _
      decide
    · exact Client.ofLine_grows (by omega) le_rfl
    · decide
    · exact .cons_cons (Client.ofLine_grows le_rfl le_rfl) (.singleton _)
    · decide
    · decide
  obtain ⟨store, hrun, hsent⟩ := hrun
  exact ⟨store, hsent, ready_messages_available hrun⟩

/-- The handler of an event sees one state of the client. -/
def OneClient (store : DataStore Hash Message Cache) : Event Hash Message → Prop
  | .received _ clients _ | .maintenance _ clients _ => ∀ c ∈ clients, c = store.client
  | _ => True

/-- No received message mentions a missing block more than once. -/
def MissingOnce (store : DataStore Hash Message Cache) : Event Hash Message → Prop
  | .received message _ _ =>
    ∀ b ∈ includedBlocks message, ¬Available store.client b → (includedBlocks message).count b = 1
  | _ => True

section Maintenance
variable {surplus : ℕ → ℕ} {store after : DataStore Hash Message Cache}
  {lookups : List (AlephData Hash × Client Hash)}

omit [AlephNetworkMessage Message Hash] in
/-- With one state of the client, what is required is missing. -/
theorem Checked.required_missing {requirements : List (AlephData Hash)} {finalizedNumber : ℕ}
    (hchecked : Checked finalizedNumber lookups store requirements after)
    {client : Client Hash} (hclients : ∀ l ∈ lookups, l.2 = client)
    (hnumber : finalizedNumber = client.finalizedNumber) :
    ∀ b ∈ requirements, ¬Available client b := by
  induction hchecked with
  | nil => simp
  | cached _ _ _ ih => exact ih (fun l hl => hclients l (List.mem_cons_of_mem _ hl))
  | available _ _ _ _ ih => exact ih (fun l hl => hclients l (List.mem_cons_of_mem _ hl))
  | missing _ unknown unfinalized _ ih =>
    intro b hb
    rcases List.mem_cons.mp hb with rfl | hb
    · have hclient := hclients _ List.mem_cons_self
      dsimp only at hclient
      subst hclient
      simp only [Available, unknown, Option.isSome_none, Bool.false_eq_true, false_or]
      omega
    · exact ih (fun l hl => hclients l (List.mem_cons_of_mem _ hl)) b hb

omit [AlephNetworkMessage Message Hash] in
/-- With one state of the client, the blocks that are still waited for after a maintenance
that visited them are missing. -/
theorem Maintained.waits_missing {finalizedNumber : ℕ}
    (hmaintained : Maintained finalizedNumber lookups store after)
    {client : Client Hash} (hclients : ∀ l ∈ lookups, l.2 = client)
    (hnumber : finalizedNumber = client.finalizedNumber) {b : AlephData Hash} {id : ℕ}
    (hb : Waits after.dependentMessages b id) :
    Waits store.dependentMessages b id ∧
      (b ∈ lookups.map Prod.fst → ¬Available client b) := by
  induction hmaintained with
  | nil => exact ⟨hb, by simp⟩
  | available _ _ added _ ih =>
    obtain ⟨hwaits, hmissing⟩ := ih (fun l hl => hclients l (List.mem_cons_of_mem _ hl)) hb
    obtain ⟨hwaits, hne⟩ := (added.waits _ _).mp hwaits
    refine ⟨hwaits, fun hmem => ?_⟩
    rcases List.mem_cons.mp hmem with rfl | hmem
    · exact absurd rfl hne
    · exact hmissing hmem
  | missing _ unknown unfinalized _ ih =>
    obtain ⟨hwaits, hmissing⟩ := ih (fun l hl => hclients l (List.mem_cons_of_mem _ hl)) hb
    refine ⟨hwaits, fun hmem => ?_⟩
    rcases List.mem_cons.mp hmem with rfl | hmem
    · have hclient := hclients _ List.mem_cons_self
      dsimp only at hclient
      subst hclient
      simp only [Available, unknown, Option.isSome_none, Bool.false_eq_true, false_or]
      omega
    · exact hmissing hmem

omit [AlephNetworkMessage Message Hash] in
theorem Maintained.client_eq {finalizedNumber : ℕ}
    (hmaintained : Maintained finalizedNumber lookups store after)
    {client : Client Hash} (hclients : ∀ l ∈ lookups, l.2 = client)
    (hstore : store.client = client) : after.client = client := by
  induction hmaintained with
  | nil => exact hstore
  | available _ _ added _ ih =>
    exact ih (fun l hl => hclients l (List.mem_cons_of_mem _ hl))
      (added.client_eq.trans (hclients _ List.mem_cons_self))
  | missing _ _ _ _ ih =>
    exact ih (fun l hl => hclients l (List.mem_cons_of_mem _ hl)) (hclients _ List.mem_cons_self)

/-- Without repetitions of missing blocks the counters count the index exactly. -/
theorem Effect.exact {event : Event Hash Message} (heffect : Effect store event after)
    (hadmissible : Admissible store event) (hone : OneClient store event)
    (honce : MissingOnce store event) (h : Indexed (fun _ => 0) store) :
    Indexed (fun _ => 0) after := by
  have hchecked : ∀ {lookups requirements middle},
      Checked store.client.finalizedNumber lookups store requirements middle →
        Indexed (fun _ => 0) middle := by
    intro lookups requirements middle checked
    exact checked.invariant (Indexed (fun _ => 0))
      (fun _ _ hs _ => hs.congr rfl rfl rfl rfl) (fun _ _ _ hs _ hadded => hadded.indexed hs) h
  cases heffect with
  | sent checked => exact (hchecked checked).congr rfl rfl rfl rfl
  | @registered message clients order requirements middle after checked some_missing registered =>
    have hblocks : ((includedBlocks message).zip clients).map Prod.fst = includedBlocks message :=
      List.map_fst_zip (hadmissible.2.1.ge)
    have hsub : requirements.Sublist (includedBlocks message) :=
      hblocks ▸ checked.requirements_sublist
    have hmissing := checked.required_missing
      (fun l hl => hone l.2 (List.of_mem_zip hl).2) rfl
    have hnodup : requirements.Nodup := by
      rw [List.nodup_iff_count_le_one]
      intro b
      by_cases hb : b ∈ requirements
      · exact (hsub.count_le b).trans (honce b (hsub.subset hb) (hmissing b hb)).le
      · simp [List.count_eq_zero_of_not_mem hb]
    have hindexed := registered.indexed (hchecked checked) hsub.subset some_missing
    rwa [List.toFinset_card_of_nodup hnodup, Nat.sub_self, Function.update_eq_self_iff.mpr rfl]
      at hindexed
  | imported added => exact added.indexed h
  | maintained maintained =>
    exact maintained.invariant (Indexed (fun _ => 0))
      (fun _ _ hs _ => hs.congr rfl rfl rfl rfl) (fun _ _ _ hs _ hadded => hadded.indexed hs) h
  | clientAdvanced => exact h.congr rfl rfl rfl rfl
  | readyReceiverDropped => exact h.congr rfl rfl rfl rfl

end Maintenance

theorem exact_of_run {client : Client Hash} {events : List (Event Hash Message)}
    {store : DataStore Hash Message Cache}
    (hrun : Run (Guarded (Guarded Step OneClient) MissingOnce) (new client .unbounded)
      events store) : Indexed (fun _ => 0) store := by
  apply hrun.invariant (Indexed (fun _ => 0)) (indexed_of_empty rfl rfl rfl)
  rintro s event t h ⟨honce, hone, hstep⟩
  exact (step_effect h hstep).1.exact hstep.1 hone honce h

/-- If no message ever mentions a missing block twice, then every message that is pending
right after a maintenance mentions a block that is missing. -/
theorem maintenance_strands_nothing {client : Client Hash} {events : List (Event Hash Message)}
    {after : DataStore Hash Message Cache} {keys : List (AlephData Hash)}
    {clients : List (Client Hash)} {order : AlephData Hash → List ℕ}
    (hrun : Run (Guarded (Guarded Step OneClient) MissingOnce) (new client .unbounded)
      (.maintenance keys clients order :: events) after) :
    ∀ id message, after.pendingMessages.lookup id = some message →
      ∃ b ∈ includedBlocks message, ¬Available after.client b := by
  have hafter := exact_of_run hrun
  obtain ⟨store, hbefore, _, hone, hstep⟩ := Run.cons_iff.mp hrun
  have heffect := (step_effect (exact_of_run hbefore) hstep).1
  obtain ⟨⟨_, ⟨hlength, _⟩, hkeys⟩, _⟩ := hstep
  have hclients : ∀ l ∈ keys.zip clients, l.2 = store.client :=
    fun l hl => hone l.2 (List.of_mem_zip hl).2
  intro id message hmessage
  cases heffect with
  | maintained maintained =>
    -- the counter of a pending message is positive, so some block is still waited for
    obtain ⟨k, hk⟩ := Option.isSome_iff_exists.mp ((hafter.same_keys id).mpr (by simp [hmessage]))
    obtain ⟨hpos, hcount⟩ := hafter.counted id k hk
    have hsome : 0 < (waitingOn after.dependentMessages id).card := by omega
    obtain ⟨b, hb⟩ := Finset.card_pos.mp hsome
    have hwaits := mem_waitingOn.mp hb
    obtain ⟨hold, hmissing⟩ := maintained.waits_missing hclients rfl hwaits
    obtain ⟨m, hm, hincluded⟩ := hafter.waiting b id hwaits
    rw [hmessage, Option.some.injEq] at hm
    refine ⟨b, hm ▸ hincluded, ?_⟩
    rw [maintained.client_eq hclients rfl]
    apply hmissing
    rw [List.map_fst_zip hlength.ge, hkeys.2, Finmap.mem_keys]
    obtain ⟨ids, hids, _⟩ := hold
    exact Finmap.mem_of_lookup_eq_some hids

/-- Of two missing blocks one becomes known; the message keeps waiting for the other. -/
theorem maintenance_strands_nothing_half :
    ∃ after : DataStore ℕ BlockList (LruCache (AlephData ℕ)),
      after.pendingMessages.lookup 0 = some ⟨[⟨2, 1⟩, ⟨3, 2⟩]⟩ ∧
        ∀ id message, after.pendingMessages.lookup id = some message →
          ∃ b ∈ includedBlocks message, ¬Available after.client b := by
  have hrun : ∃ after : DataStore ℕ BlockList (LruCache (AlephData ℕ)),
      Run (Guarded (Guarded Step OneClient) MissingOnce) (new (Client.ofLine 0 0) .unbounded)
        [.maintenance [⟨2, 1⟩, ⟨3, 2⟩] [Client.ofLine 1 0, Client.ofLine 1 0] (fun _ => [0]),
          .clientAdvanced (Client.ofLine 1 0),
          .received ⟨[⟨2, 1⟩, ⟨3, 2⟩]⟩ [Client.ofLine 0 0, Client.ofLine 0 0] (fun _ => [])] after ∧
      after.pendingMessages.lookup 0 = some ⟨[⟨2, 1⟩, ⟨3, 2⟩]⟩ := by
    refine ⟨_, .tail (.tail (.tail .refl ⟨?_, ?_, ⟨?_, rfl, ?_⟩, rfl⟩) ⟨trivial, trivial, ?_, rfl⟩)
      ⟨trivial, ?_, ⟨?_, ⟨rfl, ?_⟩, ?_⟩, rfl⟩, ?_⟩
    · show ∀ b ∈ ([⟨2, 1⟩, ⟨3, 2⟩] : List (AlephData ℕ)), ¬Available (Client.ofLine 0 0) b →
        List.count b [⟨2, 1⟩, ⟨3, 2⟩] = 1
      decide
    · simp [OneClient, new]
    · decide
    · exact .cons_cons (Client.ofLine_grows le_rfl le_rfl)
        (.cons_cons (Client.ofLine_grows le_rfl le_rfl) (.singleton _))
    · exact Client.ofLine_grows (by omega) le_rfl
    · simp [OneClient]
    · decide
    · exact .cons_cons (Client.ofLine_grows le_rfl le_rfl)
        (.cons_cons (Client.ofLine_grows le_rfl le_rfl) (.singleton _))
    · decide
    · decide
  obtain ⟨after, hrun, hpending⟩ := hrun
  exact ⟨after, hpending, maintenance_strands_nothing hrun⟩

/-- A message that mentions one missing block twice comes in, the block becomes known to
the client, and a maintenance runs: the message stays. -/
theorem maintenance_strands_repetition :
    ∃ after : DataStore ℕ BlockList (LruCache (AlephData ℕ)),
      Run (Guarded Step OneClient) (new (Client.ofLine 0 0) .unbounded)
        [.maintenance [⟨2, 1⟩] [Client.ofLine 1 0] (fun _ => [0]),
          .clientAdvanced (Client.ofLine 1 0),
          .received ⟨[⟨2, 1⟩, ⟨2, 1⟩]⟩ [Client.ofLine 0 0, Client.ofLine 0 0] (fun _ => [])]
        after ∧
      after.pendingMessages.lookup 0 = some ⟨[⟨2, 1⟩, ⟨2, 1⟩]⟩ ∧
      ∀ b ∈ includedBlocks (⟨[⟨2, 1⟩, ⟨2, 1⟩]⟩ : BlockList), Available after.client b := by
  refine ⟨_, .tail (.tail (.tail .refl ⟨?_, ⟨?_, rfl, ?_⟩, rfl⟩) ⟨trivial, ?_, rfl⟩)
    ⟨?_, ⟨?_, ⟨rfl, ?_⟩, ?_⟩, rfl⟩, ?_, ?_⟩
  · simp [OneClient, new]
  · decide
  · exact .cons_cons (Client.ofLine_grows le_rfl le_rfl)
      (.cons_cons (Client.ofLine_grows le_rfl le_rfl) (.singleton _))
  · exact Client.ofLine_grows (by omega) le_rfl
  · simp [OneClient]
  · decide
  · exact .cons_cons (Client.ofLine_grows le_rfl le_rfl) (.singleton _)
  · decide
  · decide
  · decide

end AlephNode.DataStore
