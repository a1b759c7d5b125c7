import AlephNode.PrunedSessions

/-!
# The turns of an authority

When the node has a key of one of the authorities of a session, the party starts the tasks of
an authority, and tells them to exit when the last block of the session is finalized. So the
calls of the party are turns, one after the other, of later and later sessions: no session has
two of them, and there are never the tasks of two sessions that have not been told to exit.
-/
namespace AlephNode

structure Turn (Hash A : Type) where
  sessionId : SessionId
  keybox : KeyBox A
  bestChain : AlephData Hash
  lastBlock : ℕ

namespace Turn
variable {Hash A : Type}

def start (turn : Turn Hash A) : PartyCall Hash A :=
  .authorityStarted turn.sessionId turn.keybox turn.bestChain turn.lastBlock

def calls (turn : Turn Hash A) : List (PartyCall Hash A) :=
  [turn.start, .exitSignal turn.sessionId]

/-- The authorities are those of the session, and the key is the first one among them that the
node has. -/
structure Proper (authoritiesOf : SessionId → List A) (keystore : List A) (period : SessionPeriod)
    (turn : Turn Hash A) : Prop where
  authorities : turn.keybox.authorities = authoritiesOf turn.sessionId
  listed : (authoritiesOf turn.sessionId)[turn.keybox.id.val]? = some turn.keybox.authKeystore
  own : turn.keybox.authKeystore ∈ keystore
  least : ∀ i < turn.keybox.id.val, ∀ key,
    (authoritiesOf turn.sessionId)[i]? = some key → key ∉ keystore
  lastBlock : turn.lastBlock = lastBlockOfSession turn.sessionId period

end Turn

namespace ConsensusParty
variable {Hash A : Type} [DecidableEq A]

def runningAt : Position A → Option SessionId
  | .waiting sessionId (some _) => some sessionId
  | _ => none

def authoritiesAt : Position A → Option (SessionId × List A)
  | .early sessionId authorities => some (sessionId, authorities)
  | .attempting sessionId authorities _ => some (sessionId, authorities)
  | .joining sessionId authorities => some (sessionId, authorities)
  | _ => none

/-- Tasks have been started for the session already, as far as the position tells. -/
def JoinedBefore : Position A → SessionId → Prop
  | .started, _ => False
  | .next currId, s => s.val.toNat < currId.toNat
  | .reading sessionId, s => s.val.toNat < sessionId.val.toNat
  | .early sessionId _, s => s.val.toNat < sessionId.val.toNat
  | .attempting sessionId _ _, s => s.val.toNat < sessionId.val.toNat
  | .joining sessionId _, s => s.val.toNat < sessionId.val.toNat
  | .waiting sessionId _, s => s.val.toNat ≤ sessionId.val.toNat
  | .left sessionId, s => s.val.toNat ≤ sessionId.val.toNat
  | .panicked _, _ => True

/-- The number of the next session fits, and the runtime answers, if it does, with the
authorities of the sessions. -/
structure Answering (authoritiesOf : SessionId → List A) (task : Task Hash A)
    (event : Event Hash A) : Prop where
  counted : ∀ sessionId, event = .sessionBegun sessionId → sessionId.val.toNat + 1 < 2 ^ 32
  genesis : ∀ authorities, event = .genesisAuthorities (some authorities) →
    authorities = authoritiesOf ⟨0⟩
  later : ∀ sessionId block authorities, task.position = .reading sessionId →
    event = .nextSessionAuthorities block (.answered authorities) →
    authorities = authoritiesOf sessionId

structure InTurns (authoritiesOf : SessionId → List A) (start : ConsensusParty Hash A)
    (finished : List (Turn Hash A)) (running : Option (Turn Hash A)) (task : Task Hash A) :
    Prop where
  keystore : task.party.keystore = start.keystore
  period : task.party.sessionPeriod = start.sessionPeriod
  calls : task.party.calls = finished.flatMap Turn.calls ++ (running.map Turn.start).toList
  increasing : (finished ++ running.toList).Pairwise
    (fun turn later => turn.sessionId.val.toNat < later.sessionId.val.toNat)
  proper : ∀ turn ∈ finished ++ running.toList,
    turn.Proper authoritiesOf start.keystore start.sessionPeriod
  completed : ∀ turn ∈ finished,
    lastBlockOfSession turn.sessionId start.sessionPeriod ≤ task.party.client.finalizedNumber
  before : ∀ turn ∈ finished ++ running.toList, JoinedBefore task.position turn.sessionId
  running : running.map (·.sessionId) = runningAt task.position
  listed : ∀ sessionId authorities, authoritiesAt task.position = some (sessionId, authorities) →
    authorities = authoritiesOf sessionId
  idle : ∀ sessionId, task.position = .waiting sessionId none →
    ∀ key ∈ authoritiesOf sessionId, key ∉ start.keystore

section Keys
variable {authorities keystore : List A}

theorem getNodeIndex_eq_some {nodeId : NodeIndex} (h : getNodeIndex authorities keystore = some nodeId) :
    ∃ key, authorities[nodeId.val]? = some key ∧ key ∈ keystore ∧
      ∀ i < nodeId.val, ∀ key', authorities[i]? = some key' → key' ∉ keystore := by
  obtain ⟨index, hindex, rfl⟩ := Option.map_eq_some_iff.mp h
  obtain ⟨hlt, hkey, hleast⟩ := List.findIdx?_eq_some_iff_getElem.mp hindex
  refine ⟨authorities[index], List.getElem?_eq_getElem hlt, of_decide_eq_true hkey, ?_⟩
  intro i hi key' hkey'
  obtain ⟨hlt', rfl⟩ := List.getElem?_eq_some_iff.mp hkey'
  simpa using hleast i hi

theorem getNodeIndex_eq_none (h : getNodeIndex authorities keystore = none) :
    ∀ key ∈ authorities, key ∉ keystore := by
  intro key hkey
  have hnone := List.findIdx?_eq_none_iff.mp (Option.map_eq_none_iff.mp h) key hkey
  simpa using hnone

end Keys

section Steps
variable {authoritiesOf : SessionId → List A} {start party : ConsensusParty Hash A}
  {finished : List (Turn Hash A)} {running : Option (Turn Hash A)} {task task' : Task Hash A}
  {event : Event Hash A} {events : List (Event Hash A)} {position : Position A} {s : SessionId}
  {authorities : List A}

omit [DecidableEq A] in
private theorem InTurns.moved (h : InTurns authoritiesOf start finished running task)
    (hkeystore : task'.party.keystore = task.party.keystore)
    (hperiod : task'.party.sessionPeriod = task.party.sessionPeriod)
    (hcalls : task'.party.calls = task.party.calls)
    (hfinalized : task.party.client.finalizedNumber ≤ task'.party.client.finalizedNumber)
    (hbefore : ∀ s, JoinedBefore task.position s → JoinedBefore task'.position s)
    (hrunning : runningAt task'.position = runningAt task.position)
    (hlisted : ∀ sessionId authorities, authoritiesAt task'.position = some (sessionId, authorities) →
      authorities = authoritiesOf sessionId)
    (hidle : ∀ sessionId, task'.position = .waiting sessionId none →
      ∀ key ∈ authoritiesOf sessionId, key ∉ start.keystore) :
    InTurns authoritiesOf start finished running task' where
  keystore := hkeystore.trans h.keystore
  period := hperiod.trans h.period
  calls := hcalls.trans h.calls
  increasing := h.increasing
  proper := h.proper
  completed turn hturn := (h.completed turn hturn).trans hfinalized
  before turn hturn := hbefore _ (h.before turn hturn)
  running := h.running.trans hrunning.symm
  listed := hlisted
  idle := hidle

omit [DecidableEq A] in
private theorem InTurns.within {sessionAuthorities : FiniteMap SessionId (List A)}
    {position' : Position A} (h : InTurns authoritiesOf start finished running ⟨party, position⟩)
    (hbefore : ∀ s, JoinedBefore position s → JoinedBefore position' s)
    (hrunning : runningAt position = none) (hrunning' : runningAt position' = none)
    (hidle : ∀ s, position' ≠ .waiting s none)
    (hlisted : ∀ sessionId authorities, authoritiesAt position' = some (sessionId, authorities) →
      authorities = authoritiesOf sessionId) :
    InTurns authoritiesOf start finished running
      ⟨{ party with sessionAuthorities := sessionAuthorities }, position'⟩ :=
  h.moved rfl rfl rfl (Nat.le_refl _) hbefore (hrunning'.trans hrunning.symm) hlisted
    (fun s hs => absurd hs (hidle s))

omit [DecidableEq A] in
private theorem InTurns.knows (h : InTurns authoritiesOf start finished running ⟨party, .reading s⟩)
    (hauthorities : authorities = authoritiesOf s) :
    InTurns authoritiesOf start finished running (party.knowAuthorities s authorities) := by
  refine h.within (fun _ hs => hs) rfl rfl nofun ?_
  rintro _ _ ⟨⟩
  exact hauthorities

private theorem InTurns.joined {bestChain : Option (AlephData Hash)}
    (h : InTurns authoritiesOf start finished running ⟨party, .joining s authorities⟩) :
    ∃ running, InTurns authoritiesOf start finished running (party.join s authorities bestChain) := by
  have hauthorities : authorities = authoritiesOf s := h.listed s authorities rfl
  have hkeystore : party.keystore = start.keystore := h.keystore
  have hperiod : party.sessionPeriod = start.sessionPeriod := h.period
  have hnone : running = none := Option.map_eq_none_iff.mp h.running
  subst hnone
  unfold join
  cases hindex : getNodeIndex authorities party.keystore with
  | none =>
    refine ⟨none, h.moved rfl rfl rfl (Nat.le_refl _) (fun _ hs => Nat.le_of_lt hs) rfl nofun ?_⟩
    rintro s' ⟨⟩
    rw [← hauthorities, ← hkeystore]
    exact getNodeIndex_eq_none hindex
  | some nodeId =>
    obtain ⟨key, hkey, hown, hleast⟩ := getNodeIndex_eq_some hindex
    simp only [KeyBox.new, hkey]
    cases bestChain with
    | none => exact ⟨none, h.within (fun _ _ => trivial) rfl rfl nofun nofun⟩
    | some best =>
      let turn : Turn Hash A :=
        ⟨s, ⟨nodeId, key, authorities⟩, best, lastBlockOfSession s party.sessionPeriod⟩
      have hproper : turn.Proper authoritiesOf start.keystore start.sessionPeriod := by
        rw [hauthorities] at hkey hleast
        rw [hkeystore] at hown hleast
        exact ⟨hauthorities, hkey, hown, hleast, by rw [← hperiod]⟩
      have hbefore : ∀ earlier ∈ finished, earlier.sessionId.val.toNat < s.val.toNat :=
        fun earlier hearlier => h.before earlier (List.mem_append_left _ hearlier)
      have hmem : ∀ other ∈ finished ++ (some turn).toList, other ∈ finished ∨ other = turn := by
        intro other hother
        simpa using hother
      have hproperAll := h.proper
      simp only [Option.toList_none, List.append_nil] at hproperAll
      refine ⟨some turn, h.keystore, h.period, ?_, ?_, ?_, h.completed, ?_, rfl, nofun, nofun⟩
      · have hcalls : party.calls = finished.flatMap Turn.calls := by simpa using h.calls
        rw [hcalls]
        rfl
      · refine List.pairwise_append.mpr ⟨?_, by simp, ?_⟩
        · simpa using h.increasing
        · intro earlier hearlier later hlater
          rw [Option.toList_some, List.mem_singleton] at hlater
          subst hlater
          exact hbefore earlier hearlier
      · intro other hother
        rcases hmem other hother with hother | rfl
        · exact hproperAll other hother
        · exact hproper
      · intro other hother
        rcases hmem other hother with hother | rfl
        · exact Nat.le_of_lt (hbefore other hother)
        · exact Nat.le_refl _

omit [DecidableEq A] in
private theorem InTurns.polled {maybeNodeId : Option NodeIndex}
    (h : InTurns authoritiesOf start finished running ⟨party, .waiting s maybeNodeId⟩) :
    ∃ finished running, InTurns authoritiesOf start finished running (party.poll s maybeNodeId) := by
  unfold poll
  split
  · next hover =>
    cases maybeNodeId with
    | none => exact ⟨finished, running, h.within (fun _ hs => hs) rfl rfl nofun nofun⟩
    | some nodeId =>
      obtain ⟨turn, rfl, hsession⟩ := Option.map_eq_some_iff.mp h.running
      subst hsession
      have hall : finished ++ [turn] ++ (none : Option (Turn Hash A)).toList =
          finished ++ (some turn).toList := by simp
      refine ⟨finished ++ [turn], none, h.keystore, h.period, ?_, ?_, ?_, ?_, ?_, rfl, nofun, nofun⟩
      · have hcalls : party.calls = finished.flatMap Turn.calls ++ [turn.start] := h.calls
        simp [hcalls, Turn.calls]
      · rw [hall]
        exact h.increasing
      · rw [hall]
        exact h.proper
      · intro other hother
        rcases List.mem_append.mp hother with hother | hother
        · exact h.completed other hother
        · rw [List.mem_singleton.mp hother]
          have hperiod : party.sessionPeriod = start.sessionPeriod := h.period
          exact hperiod ▸ hover
      · rw [hall]
        exact h.before
  · exact ⟨finished, running, h⟩

/-- The session of a step is the one before, or has just begun. -/
theorem begunAt_step (hstep : Step task event task') (hbegun : BegunAt task'.position s) :
    BegunAt task.position s ∨ event = .sessionBegun s := by
  cases hstep with
  | started =>
    unfold ConsensusParty.start at hbegun
    split at hbegun
    · exact hbegun.elim
    · exact hbegun.elim
  | sessionBegun =>
    right
    rw [show s = _ from hbegun]
  | @genesisAuthorities _ _ answer =>
    cases answer with
    | none => exact hbegun.elim
    | some => exact .inl hbegun
  | @nextSessionAuthorities _ _ _ answer =>
    cases answer with
    | refused => exact hbegun.elim
    | failed | answered => exact .inl hbegun
  | bestChecked =>
    unfold checkBest at hbegun
    split at hbegun
    · exact .inl hbegun
    · exact .inl hbegun
  | attempted =>
    unfold attemptSkip at hbegun
    split at hbegun
    · exact .inl hbegun
    · split at hbegun
      · exact .inl hbegun
      · exact .inl hbegun
  | joined =>
    unfold join at hbegun
    split at hbegun
    · exact .inl hbegun
    · split at hbegun
      · exact hbegun.elim
      · exact hbegun.elim
      · exact .inl hbegun
  | polled =>
    unfold poll at hbegun
    split at hbegun
    · split at hbegun
      · exact .inl hbegun
      · exact .inl hbegun
    · exact .inl hbegun
  | @sessionLeft party sessionId =>
    obtain ⟨sessionAuthorities, hleave⟩ := leave_frame party sessionId
    rw [hleave] at hbegun
    exact hbegun.elim
  | clientGrown => exact .inl hbegun

/-- What a step does to the turns: the last one starts or ends, at most. -/
theorem inTurns_step
    (hcounted : ∀ s, BegunAt task.position s → s.val.toNat + 1 < 2 ^ 32)
    (h : InTurns authoritiesOf start finished running task)
    (hstep : Guarded Step (Answering authoritiesOf) task event task') :
    ∃ finished running, InTurns authoritiesOf start finished running task' := by
  obtain ⟨hanswering, hstep⟩ := hstep
  cases hstep with
  | started =>
    unfold ConsensusParty.start
    split
    · exact ⟨finished, running, h.within (fun _ hs => hs.elim) rfl rfl nofun nofun⟩
    · exact ⟨finished, running, h.within (fun _ hs => hs.elim) rfl rfl nofun nofun⟩
  | sessionBegun => exact ⟨finished, running, h.within (fun _ hs => hs) rfl rfl nofun nofun⟩
  | @genesisAuthorities _ _ answer genesis =>
    subst genesis
    cases answer with
    | none => exact ⟨finished, running, h.within (fun _ _ => trivial) rfl rfl nofun nofun⟩
    | some authorities =>
      exact ⟨finished, running, h.knows (hanswering.genesis authorities rfl)⟩
  | @nextSessionAuthorities _ _ block answer =>
    cases answer with
    | failed =>
      exact ⟨finished, running, h.within (fun _ hs => Nat.le_of_lt hs) rfl rfl nofun nofun⟩
    | refused => exact ⟨finished, running, h.within (fun _ _ => trivial) rfl rfl nofun nofun⟩
    | answered authorities =>
      exact ⟨finished, running, h.knows (hanswering.later _ block authorities rfl rfl)⟩
  | bestChecked =>
    have hlisted := h.listed
    unfold checkBest
    split
    · exact ⟨finished, running, h.within (fun _ hs => hs) rfl rfl nofun hlisted⟩
    · exact ⟨finished, running, h.within (fun _ hs => hs) rfl rfl nofun hlisted⟩
  | attempted =>
    have hlisted := h.listed
    unfold attemptSkip
    split
    · exact ⟨finished, running, h.within (fun _ hs => Nat.le_of_lt hs) rfl rfl nofun nofun⟩
    · split
      · exact ⟨finished, running, h.within (fun _ hs => hs) rfl rfl nofun hlisted⟩
      · exact ⟨finished, running, h.within (fun _ hs => hs) rfl rfl nofun hlisted⟩
  | joined =>
    obtain ⟨running, hturns⟩ := h.joined
    exact ⟨finished, running, hturns⟩
  | polled => exact h.polled
  | @sessionLeft party sessionId =>
    have hnext : (sessionId.val + 1).toNat = sessionId.val.toNat + 1 := by
      rw [UInt32.toNat_add, UInt32.toNat_one, Nat.mod_eq_of_lt (hcounted sessionId rfl)]
    obtain ⟨sessionAuthorities, hleave⟩ := leave_frame party sessionId
    rw [hleave]
    refine ⟨finished, running, h.within ?_ rfl rfl nofun nofun⟩
    intro s hs
    show s.val.toNat < (sessionId.val + 1).toNat
    rw [hnext]
    exact Nat.lt_succ_of_le hs
  | clientGrown grows =>
    exact ⟨finished, running, h.moved rfl rfl rfl grows.finalized (fun _ hs => hs) rfl h.listed h.idle⟩

/-- In every run the calls of the party are turns of later and later sessions, each with the
authorities of its session and the first of their keys that the node has. A turn is told to
exit when the last block of its session is finalized, before the next one starts; and the
party waits for the end of a session without a turn only if it has none of its keys. -/
theorem authority_turns {party : ConsensusParty Hash A} (hcalls : party.calls = [])
    (hrun : Run (Guarded Step (Answering authoritiesOf)) ⟨party, .started⟩ events task) :
    ∃ finished running, InTurns authoritiesOf party finished running task := by
  have hinvariant : (∀ s, BegunAt task.position s → s.val.toNat + 1 < 2 ^ 32) ∧
      ∃ finished running, InTurns authoritiesOf party finished running task := by
    apply hrun.invariant (fun task =>
      (∀ s, BegunAt task.position s → s.val.toNat + 1 < 2 ^ 32) ∧
        ∃ finished running, InTurns authoritiesOf party finished running task)
    · refine ⟨fun _ hs => hs.elim, [], none, ?_⟩
      exact ⟨rfl, rfl, hcalls, by simp, by simp, by simp, by simp, rfl, nofun, nofun⟩
    · intro task event task' h hstep
      obtain ⟨hcounted, finished, running, hturns⟩ := h
      refine ⟨?_, inTurns_step hcounted hturns hstep⟩
      intro s hs
      rcases begunAt_step hstep.2 hs with hbegun | hbegun
      · exact hcounted s hbegun
      · exact hstep.1.counted s hbegun
  exact hinvariant.2

end Steps

section Example

private def soleParty : ConsensusParty ℕ PlainKey := ⟨∅, ⟨5⟩, .ofLine 3 0, [⟨7⟩], []⟩

private theorem soleParty_run : ∃ events task,
    Run (Guarded Step (Answering (fun _ => [⟨7⟩]))) ⟨soleParty, .started⟩ events task ∧
      task.position = .left ⟨0⟩ ∧ task.party.calls.length = 2 := by
  have hcalm : ∀ task : Task ℕ PlainKey, ∀ event : Event ℕ PlainKey,
      event = .started ∨ event = .bestChecked ∨ event = .joined (some ⟨4, 3⟩) ∨
        event = .clientGrown (.ofLine 9 4) ∨ event = .polled →
      Answering (fun _ => [⟨7⟩]) task event := by
    rintro task event (rfl | rfl | rfl | rfl | rfl) <;> exact ⟨nofun, nofun, nofun⟩
  have hbegun : Answering (fun _ => [⟨7⟩]) ⟨soleParty, .next 0⟩ (.sessionBegun ⟨0⟩) := by
    refine ⟨?_, nofun, nofun⟩
    rintro sessionId ⟨⟩
    show 0 + 1 < 2 ^ 32
    decide
  have hgenesis : Answering (fun _ => [⟨7⟩]) ⟨soleParty, .reading ⟨0⟩⟩
      (.genesisAuthorities (some [⟨7⟩])) := by
    refine ⟨nofun, ?_, nofun⟩
    rintro authorities ⟨⟩
    rfl
  have hstep : Step ⟨soleParty, .started⟩ .started ⟨soleParty, .next 0⟩ := .started
  refine ⟨[.polled, .clientGrown (.ofLine 9 4), .joined (some ⟨4, 3⟩), .bestChecked,
    .genesisAuthorities (some [⟨7⟩]), .sessionBegun ⟨0⟩, .started], _,
    .tail (.tail (.tail (.tail (.tail (.tail (.tail .refl ⟨hcalm _ _ ?_, hstep⟩)
      ⟨hbegun, .sessionBegun⟩) ⟨hgenesis, .genesisAuthorities rfl⟩) ⟨hcalm _ _ ?_, .bestChecked⟩)
      ⟨hcalm _ _ ?_, .joined⟩) ⟨hcalm _ _ ?_, .clientGrown ?_⟩) ⟨hcalm _ _ ?_, .polled⟩, rfl, rfl⟩
  · simp
  · simp
  · simp
  · simp
  · exact Client.ofLine_grows (by decide) (by decide)
  · simp

private theorem soleParty_disturbed : ∃ events task,
    Run (Guarded Step (Answering (fun _ => [⟨7⟩]))) ⟨soleParty, .started⟩ events task ∧
      task.position = .left ⟨0 + 1⟩ ∧ task.party.calls.length = 2 := by
  obtain ⟨events, ⟨party, position⟩, hrun, hposition, hlength⟩ := soleParty_run
  dsimp only at hposition hlength
  subst hposition
  obtain ⟨sessionAuthorities, hleave⟩ := leave_frame party ⟨0⟩
  let later : ConsensusParty ℕ PlainKey := { party with sessionAuthorities := sessionAuthorities }
  let block := lastBlockOfSession ⟨0 + 1 - 1⟩ later.sessionPeriod
  have hleft : Step ⟨party, .left ⟨0⟩⟩ .sessionLeft ⟨later, .next (0 + 1)⟩ :=
    hleave ▸ Step.sessionLeft
  have hcalm : Answering (fun _ => [⟨7⟩]) ⟨party, .left ⟨0⟩⟩ .sessionLeft := ⟨nofun, nofun, nofun⟩
  have hbegun : Answering (fun _ => [⟨7⟩]) ⟨later, .next (0 + 1)⟩ (.sessionBegun ⟨0 + 1⟩) := by
    refine ⟨?_, nofun, nofun⟩
    rintro sessionId ⟨⟩
    decide
  have hfailed : Step ⟨later, .reading ⟨0 + 1⟩⟩ (.nextSessionAuthorities block .failed)
      ⟨later, .left ⟨0 + 1⟩⟩ := .nextSessionAuthorities (by decide) rfl
  have hunanswered : Answering (fun _ => [⟨7⟩]) ⟨later, .reading ⟨0 + 1⟩⟩
      (.nextSessionAuthorities block .failed) := ⟨nofun, nofun, nofun⟩
  exact ⟨_, _, .tail (.tail (.tail hrun ⟨hcalm, hleft⟩) ⟨hbegun, .sessionBegun⟩)
    ⟨hunanswered, hfailed⟩, rfl, hlength⟩

/-- A turn of session 0. Then the runtime does not answer for session 1, which is left. -/
theorem authority_turns_sole : ∃ task finished, ∃ running : Option (Turn ℕ PlainKey),
    InTurns (fun _ => [⟨7⟩]) soleParty finished running task ∧ finished.length = 1 ∧
      running = none := by
  obtain ⟨events, task, hrun, hleft, hlength⟩ := soleParty_disturbed
  obtain ⟨finished, running, hturns⟩ := authority_turns rfl hrun
  have hrunning := hturns.running
  rw [hleft] at hrunning
  have hnone : running = none := Option.map_eq_none_iff.mp hrunning
  rw [hturns.calls, hnone] at hlength
  refine ⟨task, finished, running, hturns, ?_, hnone⟩
  simp [Turn.calls, List.length_flatMap] at hlength
  omega

end Example
end ConsensusParty
end AlephNode
