import AlephNode.NotificationStreams
import AlephNode.PrunedSessions

/-!
# The party gets to the session of the next block

When the runtime answers and there is a best chain, the party does not panic, and it is
never ahead of the session of the next block to be finalized. On its own, without further
finalized blocks, it gets to that session and stores its authorities.
-/
namespace AlephNode.ConsensusParty

variable {Hash A : Type} [DecidableEq A]

def ReadAt : Position A → SessionId → Prop
  | .early sessionId _, s => s = sessionId
  | .attempting sessionId _ _, s => s = sessionId
  | .joining sessionId _, s => s = sessionId
  | .waiting sessionId _, s => s = sessionId
  | .left sessionId, s => s = sessionId
  | _, _ => False

def CurrentAt : Position A → SessionId → Prop
  | .next currId, s => s = ⟨currId⟩
  | .reading sessionId, s => s = sessionId
  | position, s => ReadAt position s

def nextSession (party : ConsensusParty Hash A) : ℕ :=
  min (party.client.finalizedNumber + 1) (2 ^ 32 - 1) / party.sessionPeriod.val.toNat

/-- The party moves on its own. The runtime answers, there is a best chain, and the last
blocks of the sessions that begin are computed without overflow. -/
def Served (authoritiesOf : SessionId → List A) (task : Task Hash A) : Event Hash A → Prop
  | .sessionBegun sessionId => Fits sessionId task.party.sessionPeriod
  | .genesisAuthorities answer => answer = some (authoritiesOf ⟨0⟩)
  | .nextSessionAuthorities _ answer =>
    ∀ s, task.position = .reading s → answer = .answered (authoritiesOf s)
  | .joined bestChain => bestChain.isSome = true
  | .clientGrown _ => False
  | _ => True

structure Placed (authoritiesOf : SessionId → List A) (task : Task Hash A) : Prop where
  running : ∀ panic, task.position ≠ .panicked panic
  reached : ∀ s, CurrentAt task.position s → s.val.toNat ≤ task.party.nextSession
  lists : JustificationHandler.Lists task.party.sessionAuthorities authoritiesOf
  read : ∀ s, ReadAt task.position s →
    task.party.sessionAuthorities.lookup s = some (authoritiesOf s)

section Steps
variable {authoritiesOf : SessionId → List A} {task task' : Task Hash A} {event : Event Hash A}
  {party : ConsensusParty Hash A} {position : Position A} {s c : SessionId} {authorities : List A}

omit [DecidableEq A] in
theorem ReadAt.current (h : ReadAt position s) : CurrentAt position s := by
  cases position <;> first | exact h | exact h.elim

theorem Served.undisturbed (h : Served authoritiesOf task event) (hstep : Step task event task') :
    Undisturbed task event := by
  constructor
  · rintro block rfl
    cases hstep with
    | nextSessionAuthorities => cases h _ rfl
  · rintro sessionId rfl
    exact h

theorem getNodeIndex_returns {keystore : List A} {nodeId : NodeIndex}
    (h : getNodeIndex authorities keystore = some nodeId) :
    ∃ keybox, KeyBox.new nodeId authorities = .ok keybox := by
  obtain ⟨index, hindex, rfl⟩ := Option.map_eq_some_iff.mp h
  obtain ⟨hlt, _⟩ := List.findIdx?_eq_some_iff_getElem.mp hindex
  refine ⟨⟨⟨index⟩, authorities[index], authorities⟩, ?_⟩
  simp [KeyBox.new, hlt]

theorem join_waits (party : ConsensusParty Hash A) (s : SessionId) (authorities : List A)
    (best : AlephData Hash) : ∃ calls maybeNodeId,
    party.join s authorities (some best) = ⟨{ party with calls := calls }, .waiting s maybeNodeId⟩ := by
  unfold join
  cases hindex : getNodeIndex authorities party.keystore with
  | none => exact ⟨party.calls, none, rfl⟩
  | some nodeId =>
    obtain ⟨keybox, hkeybox⟩ := getNodeIndex_returns hindex
    simp only [hkeybox]
    exact ⟨_, some nodeId, rfl⟩

omit [DecidableEq A] in
/-- A look at the client after the last block leaves the session. -/
theorem poll_leaves {maybeNodeId : Option NodeIndex}
    (hover : lastBlockOfSession s party.sessionPeriod ≤ party.client.finalizedNumber) :
    ∃ calls, party.poll s maybeNodeId = ⟨{ party with calls := calls }, .left s⟩ := by
  simp only [poll, ge_iff_le, if_pos hover]
  cases maybeNodeId with
  | none => exact ⟨party.calls, rfl⟩
  | some nodeId => exact ⟨_, rfl⟩

omit [DecidableEq A] in
private theorem Placed.moved (h : Placed authoritiesOf task)
    (hmap : task'.party.sessionAuthorities = task.party.sessionAuthorities)
    (hnext : task.party.nextSession ≤ task'.party.nextSession)
    (hrunning : ∀ panic, task'.position ≠ .panicked panic)
    (hcurrent : ∀ s, CurrentAt task'.position s →
      CurrentAt task.position s ∨ s.val.toNat ≤ task.party.nextSession)
    (hread : ∀ s, ReadAt task'.position s → ReadAt task.position s) :
    Placed authoritiesOf task' := by
  refine ⟨hrunning, ?_, hmap ▸ h.lists, ?_⟩
  · intro s hs
    rcases hcurrent s hs with hbefore | hreached
    · exact (h.reached s hbefore).trans hnext
    · exact hreached.trans hnext
  · intro s hs
    rw [hmap]
    exact h.read s (hread s hs)

omit [DecidableEq A] in
private theorem Placed.stays {calls : List (PartyCall Hash A)} {position' : Position A}
    (h : Placed authoritiesOf ⟨party, position⟩) (hrunning : ∀ panic, position' ≠ .panicked panic)
    (hcurrent : ∀ s, CurrentAt position' s → ReadAt position s) :
    Placed authoritiesOf ⟨{ party with calls := calls }, position'⟩ :=
  h.moved rfl (Nat.le_refl _) hrunning (fun s hs => .inl (hcurrent s hs).current)
    (fun s hs => hcurrent s hs.current)

omit [DecidableEq A] in
private theorem Placed.knows (h : Placed authoritiesOf ⟨party, .reading s⟩) :
    Placed authoritiesOf (party.knowAuthorities s (authoritiesOf s)) := by
  refine ⟨nofun, fun s' hs' => h.reached s' hs', h.lists.insert s, ?_⟩
  intro s' hs'
  have hsame : s' = s := hs'
  rw [hsame, knowAuthorities, FiniteMap.lookup_insert, if_pos rfl]

omit [DecidableEq A] in
/-- The session after one whose last block is finalized is not ahead of the next block. -/
theorem next_le_nextSession (hfits : Fits s party.sessionPeriod)
    (hperiod : 0 < party.sessionPeriod.val.toNat)
    (hover : lastBlockOfSession s party.sessionPeriod ≤ party.client.finalizedNumber) :
    (s.val + 1).toNat ≤ party.nextSession := by
  have hover' : Over ⟨party, .left s⟩ s := over_of_finalized hfits hperiod hover
  have hlt : s.val.toNat < party.nextSession := hover'
  have hle : (s.val + 1).toNat ≤ s.val.toNat + 1 := by
    rw [UInt32.toNat_add, UInt32.toNat_one]
    exact Nat.mod_le _ _
  exact hle.trans hlt

omit [DecidableEq A] in
/-- What leaving a session keeps in the map was there before. -/
theorem lists_leave (h : JustificationHandler.Lists party.sessionAuthorities authoritiesOf)
    (s : SessionId) :
    JustificationHandler.Lists (party.leave s).party.sessionAuthorities authoritiesOf := by
  unfold leave
  dsimp only
  split
  · intro session authorities hlookup
    rw [pruneSessionData, FiniteMap.lookup_retain, Option.filter_eq_some_iff] at hlookup
    exact h session authorities hlookup.1
  · exact h

theorem placed_step (hpruned : Pruned task) (h : Placed authoritiesOf task)
    (hstep : Guarded Step (Served authoritiesOf) task event task') : Placed authoritiesOf task' := by
  obtain ⟨hserved, hstep⟩ := hstep
  cases hstep with
  | @started party =>
    obtain ⟨first, hfirst⟩ := sessionIdFromBlockNum_returns hpruned.period party.client.finalizedNumber
    have hreached : first.val.toNat ≤ party.nextSession := by
      rw [(sessionIdFromBlockNum_ok.mp hfirst).2]
      exact Nat.div_le_div_right (by omega)
    simp only [start, hfirst]
    refine h.moved rfl (Nat.le_refl _) nofun ?_ (fun s hs => hs.elim)
    rintro s rfl
    exact .inr hreached
  | sessionBegun =>
    exact h.moved rfl (Nat.le_refl _) nofun (fun s hs => .inl hs) (fun s hs => hs.elim)
  | genesisAuthorities genesis =>
    cases hserved
    cases genesis
    exact h.knows
  | nextSessionAuthorities later lastPrev =>
    cases hserved _ rfl
    exact h.knows
  | bestChecked =>
    unfold checkBest
    split
    · exact h.stays nofun (fun s hs => hs)
    · exact h.stays nofun (fun s hs => hs)
  | attempted =>
    unfold attemptSkip
    split
    · exact h.stays nofun (fun s hs => hs)
    · split
      · exact h.stays nofun (fun s hs => hs)
      · exact h.stays nofun (fun s hs => hs)
  | @joined party sessionId authorities bestChain =>
    obtain ⟨best, rfl⟩ := Option.isSome_iff_exists.mp hserved
    obtain ⟨calls, maybeNodeId, hjoin⟩ := join_waits party sessionId authorities best
    rw [hjoin]
    exact h.stays nofun (fun s hs => hs)
  | polled =>
    unfold poll
    split
    · split
      · exact h.stays nofun (fun s hs => hs)
      · exact h.stays nofun (fun s hs => hs)
    · exact h
  | @sessionLeft party sessionId =>
    have hlists := lists_leave h.lists sessionId
    obtain ⟨sessionAuthorities, hleave⟩ := leave_frame party sessionId
    rw [hleave] at hlists ⊢
    refine ⟨nofun, ?_, hlists, fun s hs => hs.elim⟩
    rintro s rfl
    exact next_le_nextSession (hpruned.fits sessionId rfl) hpruned.period
      (hpruned.order sessionId rfl)
  | clientGrown => exact hserved.elim

omit [DecidableEq A] in
theorem Placed.grown {client : Client Hash} (h : Placed authoritiesOf task)
    (hgrows : task.party.client.finalizedNumber ≤ client.finalizedNumber) :
    Placed authoritiesOf { task with party.client := client } := by
  refine h.moved rfl ?_ h.running (fun s hs => .inl hs) (fun s hs => hs)
  apply Nat.div_le_div_right
  dsimp only
  omega

end Steps

def Gets (authoritiesOf : SessionId → List A) (task task' : Task Hash A) : Prop :=
  ∃ events, Run (Guarded Step (Served authoritiesOf)) task events task'

section Moves
variable {authoritiesOf : SessionId → List A} {task middle task' : Task Hash A} {event : Event Hash A}
  {party : ConsensusParty Hash A} {position : Position A} {s c : SessionId} {authorities : List A}

theorem Gets.refl (task : Task Hash A) : Gets authoritiesOf task task := ⟨[], .refl⟩

theorem Gets.step (hstep : Step task event middle) (hserved : Served authoritiesOf task event)
    (h : Gets authoritiesOf middle task') : Gets authoritiesOf task task' := by
  obtain ⟨events, hrun⟩ := h
  exact ⟨events ++ [event], Run.append_iff.mpr ⟨middle, .tail .refl ⟨hserved, hstep⟩, hrun⟩⟩

theorem Gets.frame (h : Gets authoritiesOf task task') :
    task'.party.client = task.party.client ∧
      task'.party.sessionPeriod = task.party.sessionPeriod := by
  obtain ⟨events, hrun⟩ := h
  induction hrun with
  | refl => exact ⟨rfl, rfl⟩
  | tail _ last ih =>
    obtain ⟨hserved, hstep⟩ := last
    obtain ⟨hperiod, hclient⟩ := step_frame hstep
    constructor
    · rcases hclient with hclient | ⟨rfl, _⟩
      · exact hclient.trans ih.1
      · exact hserved.elim
    · exact hperiod.trans ih.2

theorem Gets.trans (h : Gets authoritiesOf task middle) (h' : Gets authoritiesOf middle task') :
    Gets authoritiesOf task task' := by
  obtain ⟨events, hrun⟩ := h
  obtain ⟨events', hrun'⟩ := h'
  exact ⟨events' ++ events, Run.append_iff.mpr ⟨middle, hrun, hrun'⟩⟩

theorem gets_known (party : ConsensusParty Hash A) (s : SessionId) :
    Gets authoritiesOf ⟨party, .reading s⟩ (party.knowAuthorities s (authoritiesOf s)) := by
  by_cases hgenesis : s = ⟨0⟩
  · subst hgenesis
    exact .step (.genesisAuthorities rfl) rfl (.refl _)
  · have hstep : Step ⟨party, .reading s⟩
        (.nextSessionAuthorities (lastBlockOfSession ⟨s.val - 1⟩ party.sessionPeriod)
          (.answered (authoritiesOf s))) (party.knowAuthorities s (authoritiesOf s)) :=
      .nextSessionAuthorities hgenesis rfl
    refine .step hstep ?_ (.refl _)
    rintro s' ⟨⟩
    rfl

theorem gets_left_waiting {maybeNodeId : Option NodeIndex}
    (hover : lastBlockOfSession s party.sessionPeriod ≤ party.client.finalizedNumber) :
    ∃ party', Gets authoritiesOf ⟨party, .waiting s maybeNodeId⟩ ⟨party', .left s⟩ := by
  have hpoll : ∃ calls, party.poll s maybeNodeId = ⟨{ party with calls := calls }, .left s⟩ :=
    poll_leaves hover
  obtain ⟨calls, hpoll⟩ := hpoll
  have hstep : Step ⟨party, .waiting s maybeNodeId⟩ .polled (party.poll s maybeNodeId) := .polled
  rw [hpoll] at hstep
  exact ⟨_, .step hstep trivial (.refl _)⟩

theorem gets_left_joining
    (hover : lastBlockOfSession s party.sessionPeriod ≤ party.client.finalizedNumber) :
    ∃ party', Gets authoritiesOf ⟨party, .joining s authorities⟩ ⟨party', .left s⟩ := by
  let best : AlephData Hash := ⟨party.client.finalizedHash, party.client.finalizedNumber⟩
  obtain ⟨calls, maybeNodeId, hjoin⟩ := join_waits party s authorities best
  have hstep : Step ⟨party, .joining s authorities⟩ (.joined (some best))
      (party.join s authorities (some best)) := .joined
  rw [hjoin] at hstep
  have hwaiting : ∃ party', Gets authoritiesOf
      ⟨{ party with calls := calls }, .waiting s maybeNodeId⟩ ⟨party', .left s⟩ :=
    gets_left_waiting hover
  obtain ⟨party', hleft⟩ := hwaiting
  exact ⟨party', .step hstep rfl hleft⟩

theorem gets_left_attempting {attempt : ℕ}
    (hover : lastBlockOfSession s party.sessionPeriod ≤ party.client.finalizedNumber) :
    Gets authoritiesOf ⟨party, .attempting s authorities attempt⟩ ⟨party, .left s⟩ := by
  have hskip : party.attemptSkip s authorities attempt = ⟨party, .left s⟩ := if_pos hover
  have hstep : Step ⟨party, .attempting s authorities attempt⟩ .attempted
      (party.attemptSkip s authorities attempt) := .attempted
  rw [hskip] at hstep
  exact .step hstep trivial (.refl _)

theorem gets_left_early
    (hover : lastBlockOfSession s party.sessionPeriod ≤ party.client.finalizedNumber) :
    ∃ party', Gets authoritiesOf ⟨party, .early s authorities⟩ ⟨party', .left s⟩ := by
  have hstep : Step ⟨party, .early s authorities⟩ .bestChecked (party.checkBest s authorities) :=
    .bestChecked
  unfold checkBest at hstep
  split at hstep
  · exact ⟨party, .step hstep trivial (gets_left_attempting hover)⟩
  · have hjoining : ∃ party', Gets authoritiesOf ⟨party, .joining s authorities⟩
        ⟨party', .left s⟩ := gets_left_joining hover
    obtain ⟨party', hleft⟩ := hjoining
    exact ⟨party', .step hstep trivial hleft⟩

/-- A session whose last block is finalized is left, wherever the party is in it. -/
theorem gets_left (hread : ReadAt position s)
    (hover : lastBlockOfSession s party.sessionPeriod ≤ party.client.finalizedNumber) :
    ∃ party', Gets authoritiesOf ⟨party, position⟩ ⟨party', .left s⟩ := by
  cases position with
  | early =>
    cases hread
    exact gets_left_early hover
  | attempting =>
    cases hread
    exact ⟨party, gets_left_attempting hover⟩
  | joining =>
    cases hread
    exact gets_left_joining hover
  | waiting =>
    cases hread
    exact gets_left_waiting hover
  | left =>
    cases hread
    exact ⟨party, .refl _⟩
  | _ => exact hread.elim

theorem gets_reading (hfits : Fits ⟨s.val + 1⟩ party.sessionPeriod) :
    ∃ party', Gets authoritiesOf ⟨party, .left s⟩ ⟨party', .reading ⟨s.val + 1⟩⟩ := by
  obtain ⟨sessionAuthorities, hleave⟩ := leave_frame party s
  have hstep : Step ⟨party, .left s⟩ .sessionLeft (party.leave s) := .sessionLeft
  rw [hleave] at hstep
  exact ⟨_, .step hstep trivial (.step .sessionBegun hfits (.refl _))⟩

/-- Once its last block is finalized, a session is followed by the next one. -/
theorem gets_next (hread : ReadAt position c)
    (hover : lastBlockOfSession c party.sessionPeriod ≤ party.client.finalizedNumber)
    (hfits : Fits ⟨c.val + 1⟩ party.sessionPeriod) :
    ∃ party', Gets authoritiesOf ⟨party, position⟩ ⟨party', .reading ⟨c.val + 1⟩⟩ := by
  have hleft : ∃ party', Gets authoritiesOf ⟨party, position⟩ ⟨party', .left c⟩ :=
    gets_left hread hover
  obtain ⟨left, hleft⟩ := hleft
  have hperiod : left.sessionPeriod = party.sessionPeriod := hleft.frame.2
  have hreading : ∃ party', Gets authoritiesOf ⟨left, .left c⟩ ⟨party', .reading ⟨c.val + 1⟩⟩ :=
    gets_reading (hperiod ▸ hfits)
  obtain ⟨next, hreading⟩ := hreading
  exact ⟨next, hleft.trans hreading⟩

omit [DecidableEq A] in
theorem Fits.mono {period : SessionPeriod} (hfits : Fits s period)
    (hle : c.val.toNat ≤ s.val.toNat) : Fits c period :=
  lt_of_le_of_lt (Nat.mul_le_mul_right _ (Nat.succ_le_succ hle)) hfits

omit [DecidableEq A] in
theorem succ_toNat_of_lt (hlt : c.val.toNat < s.val.toNat) :
    (c.val + 1).toNat = c.val.toNat + 1 := by
  have hbound := s.val.toNat_lt
  rw [UInt32.toNat_add, UInt32.toNat_one, Nat.mod_eq_of_lt (by omega)]

/-- From one session to a later one that is not ahead of the next block. -/
theorem gets_session (hs : s.val.toNat ≤ party.nextSession) (hfits : Fits s party.sessionPeriod)
    (hcs : c.val.toNat ≤ s.val.toNat) :
    ∃ party' : ConsensusParty Hash A, Gets authoritiesOf ⟨party, .reading c⟩
      (party'.knowAuthorities s (authoritiesOf s)) := by
  obtain ⟨n, hn⟩ := Nat.exists_eq_add_of_le hcs
  induction n generalizing party c with
  | zero =>
    have hsame : c = s := session_ext (by omega)
    subst hsame
    exact ⟨party, gets_known party c⟩
  | succ n ih =>
    have hsucc := succ_toNat_of_lt (c := c) (s := s) (by omega)
    have hover : Over ⟨party, .reading c⟩ c := lt_of_lt_of_le (by omega) hs
    have hfits' : Fits ⟨c.val + 1⟩ party.sessionPeriod := hfits.mono (by dsimp only; omega)
    have hnext : ∃ party', Gets authoritiesOf (party.knowAuthorities c (authoritiesOf c))
        ⟨party', .reading ⟨c.val + 1⟩⟩ := gets_next rfl hover.finalized hfits'
    obtain ⟨next, hnext⟩ := hnext
    have hreading := (gets_known party c).trans hnext
    obtain ⟨hclient, hperiod⟩ := hreading.frame
    dsimp only at hclient hperiod
    have hsame : next.nextSession = party.nextSession := by
      rw [nextSession, hclient, hperiod, nextSession]
    have hlater : ∃ party' : ConsensusParty Hash A, Gets authoritiesOf
        ⟨next, .reading ⟨c.val + 1⟩⟩ (party'.knowAuthorities s (authoritiesOf s)) := by
      apply ih
      · exact hsame ▸ hs
      · exact hperiod ▸ hfits
      · dsimp only
        omega
      · dsimp only
        omega
    obtain ⟨later, hlater⟩ := hlater
    exact ⟨later, hreading.trans hlater⟩

def Knows (authoritiesOf : SessionId → List A) (s : SessionId) (task : Task Hash A) : Prop :=
  task.party.sessionAuthorities.lookup s = some (authoritiesOf s)

theorem gets_known_session (hs : s.val.toNat = party.nextSession)
    (hfits : Fits s party.sessionPeriod) (hcs : c.val.toNat ≤ s.val.toNat) :
    ∃ task', Gets authoritiesOf ⟨party, .reading c⟩ task' ∧ Knows authoritiesOf s task' := by
  have hgets : ∃ party' : ConsensusParty Hash A, Gets authoritiesOf ⟨party, .reading c⟩
      (party'.knowAuthorities s (authoritiesOf s)) := gets_session hs.le hfits hcs
  obtain ⟨party', hgets⟩ := hgets
  refine ⟨_, hgets, ?_⟩
  rw [Knows, knowAuthorities, FiniteMap.lookup_insert, if_pos rfl]

/-- A session that is read is the one of the next block, or is over. -/
theorem gets_authorities_read (hread : ReadAt position c)
    (hplaced : Placed authoritiesOf ⟨party, position⟩) (hs : s.val.toNat = party.nextSession)
    (hfits : Fits s party.sessionPeriod) :
    ∃ task', Gets authoritiesOf ⟨party, position⟩ task' ∧ Knows authoritiesOf s task' := by
  have hreached : c.val.toNat ≤ s.val.toNat := hs ▸ hplaced.reached c hread.current
  by_cases hsame : c = s
  · subst hsame
    exact ⟨_, .refl _, hplaced.read c hread⟩
  · have hlt : c.val.toNat < s.val.toNat :=
      lt_of_le_of_ne hreached (fun heq => hsame (session_ext heq))
    have hsucc := succ_toNat_of_lt hlt
    have hover : Over ⟨party, position⟩ c := lt_of_lt_of_eq hlt hs
    have hnext : ∃ party', Gets authoritiesOf ⟨party, position⟩ ⟨party', .reading ⟨c.val + 1⟩⟩ :=
      gets_next hread hover.finalized (hfits.mono (by dsimp only; omega))
    obtain ⟨next, hnext⟩ := hnext
    obtain ⟨hclient, hperiod⟩ := hnext.frame
    dsimp only at hclient hperiod
    have hsession : next.nextSession = party.nextSession := by
      rw [nextSession, hclient, hperiod, nextSession]
    have hlater : ∃ task', Gets authoritiesOf ⟨next, .reading ⟨c.val + 1⟩⟩ task' ∧
        Knows authoritiesOf s task' :=
      gets_known_session (hs.trans hsession.symm) (hperiod ▸ hfits) (by dsimp only; omega)
    obtain ⟨task', hlater, hknows⟩ := hlater
    exact ⟨task', hnext.trans hlater, hknows⟩

/-- Without any more finalized blocks the party stores the authorities of the session of the
next block. -/
theorem gets_authorities (hpruned : Pruned task) (hplaced : Placed authoritiesOf task)
    (hs : s.val.toNat = task.party.nextSession) (hfits : Fits s task.party.sessionPeriod) :
    ∃ task', Gets authoritiesOf task task' ∧ Knows authoritiesOf s task' := by
  obtain ⟨party, position⟩ := task
  cases position with
  | started =>
    obtain ⟨first, hfirst⟩ :=
      sessionIdFromBlockNum_returns hpruned.period party.client.finalizedNumber
    have hle : first.val.toNat ≤ s.val.toNat := by
      rw [hs, (sessionIdFromBlockNum_ok.mp hfirst).2]
      exact Nat.div_le_div_right (by dsimp only; omega)
    have hstep : Step ⟨party, .started⟩ .started party.start := .started
    rw [start, hfirst] at hstep
    have hbegun : Step ⟨party, .next first.val⟩ (.sessionBegun first) ⟨party, .reading first⟩ :=
      .sessionBegun
    have hgets : ∃ task', Gets authoritiesOf ⟨party, .reading first⟩ task' ∧
        Knows authoritiesOf s task' := gets_known_session hs hfits hle
    obtain ⟨task', hgets, hknows⟩ := hgets
    exact ⟨task', .step hstep trivial (.step hbegun (hfits.mono hle) hgets), hknows⟩
  | next currId =>
    have hle : currId.toNat ≤ s.val.toNat := hs ▸ hplaced.reached ⟨currId⟩ rfl
    have hgets : ∃ task', Gets authoritiesOf ⟨party, .reading ⟨currId⟩⟩ task' ∧
        Knows authoritiesOf s task' := gets_known_session hs hfits hle
    obtain ⟨task', hgets, hknows⟩ := hgets
    exact ⟨task', .step .sessionBegun (hfits.mono hle) hgets, hknows⟩
  | reading sessionId =>
    exact gets_known_session hs hfits (hs ▸ hplaced.reached sessionId rfl)
  | panicked panic => exact absurd rfl (hplaced.running panic)
  | early sessionId => exact gets_authorities_read (c := sessionId) rfl hplaced hs hfits
  | attempting sessionId => exact gets_authorities_read (c := sessionId) rfl hplaced hs hfits
  | joining sessionId => exact gets_authorities_read (c := sessionId) rfl hplaced hs hfits
  | waiting sessionId => exact gets_authorities_read (c := sessionId) rfl hplaced hs hfits
  | left sessionId => exact gets_authorities_read (c := sessionId) rfl hplaced hs hfits

end Moves
end AlephNode.ConsensusParty
