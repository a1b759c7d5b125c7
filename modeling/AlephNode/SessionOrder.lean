import AlephNode.ConsensusParty

/-!
# The order of sessions

Every way out of a session but one passes a comparison of the finalized number with the
session's last block. The one is a runtime that does not answer: if that happens only when
the last block is finalized already, no session is skipped; if it happens earlier, the next
session begins too early.
-/
namespace AlephNode.ConsensusParty

variable {Hash A : Type} [DecidableEq A]

/-- The session whose last block must be finalized at a point of the party. -/
def MustBeOver : Position A → SessionId → Prop
  | .next currId, s => s.val.toNat + 1 = currId.toNat
  | .reading sessionId, s => s.val.toNat + 1 = sessionId.val.toNat
  | .early sessionId _, s => s.val.toNat + 1 = sessionId.val.toNat
  | .attempting sessionId _ _, s => s.val.toNat + 1 = sessionId.val.toNat
  | .joining sessionId _, s => s.val.toNat + 1 = sessionId.val.toNat
  | .waiting sessionId _, s => s.val.toNat + 1 = sessionId.val.toNat
  | .left sessionId, s => s = sessionId
  | .started, _ => False
  | .panicked _, _ => False

def InOrder (task : Task Hash A) : Prop :=
  ∀ s, MustBeOver task.position s →
    lastBlockOfSession s task.party.sessionPeriod ≤ task.party.client.finalizedNumber

/-- The runtime fails to answer for a session only when its last block is finalized. -/
def AnswersInTime (task : Task Hash A) (event : Event Hash A) : Prop :=
  ∀ sessionId block, task.position = .reading sessionId →
    event = .nextSessionAuthorities block .failed →
    lastBlockOfSession sessionId task.party.sessionPeriod ≤ task.party.client.finalizedNumber

section Steps
variable {task task' : Task Hash A} {event : Event Hash A} {party : ConsensusParty Hash A}
  {sessionId : SessionId} {authorities : List A}

omit [DecidableEq A] in
private theorem InOrder.moved (h : InOrder task)
    (hperiod : task'.party.sessionPeriod = task.party.sessionPeriod)
    (hclient : task.party.client.finalizedNumber ≤ task'.party.client.finalizedNumber)
    (hover : ∀ s, MustBeOver task'.position s → MustBeOver task.position s ∨
      lastBlockOfSession s task.party.sessionPeriod ≤ task.party.client.finalizedNumber) :
    InOrder task' := by
  intro s hs
  rw [hperiod]
  obtain hbefore | hfinalized := hover s hs
  · exact (h s hbefore).trans hclient
  · exact hfinalized.trans hclient

omit [DecidableEq A] in
theorem start_inOrder (party : ConsensusParty Hash A) : InOrder party.start := by
  unfold start
  split
  · next startingSession hstart =>
    intro s hs
    obtain ⟨hp, hdiv⟩ := sessionIdFromBlockNum_ok.mp hstart
    have hover : (s.val.toNat + 1) * party.sessionPeriod.val.toNat ≤
        min party.client.finalizedNumber (2 ^ 32 - 1) := by
      apply (Nat.le_div_iff_mul_le hp).mp
      rw [← hdiv]
      exact hs.le
    rw [lastBlockOfSession_eq hp (by omega), finalNumber]
    dsimp only
    omega
  · intro s hs
    cases hs

omit [DecidableEq A] in
private theorem readNextSessionAuthorities_inOrder (h : InOrder ⟨party, .reading sessionId⟩)
    {answer : AuthoritiesAnswer A} (hanswer : answer = .failed →
      lastBlockOfSession sessionId party.sessionPeriod ≤ party.client.finalizedNumber) :
    InOrder (party.readNextSessionAuthorities sessionId answer) := by
  cases answer with
  | failed =>
    refine h.moved rfl (Nat.le_refl _) ?_
    intro s hs
    have hsession : s = sessionId := hs
    exact .inr (hsession ▸ hanswer rfl)
  | refused =>
    exact h.moved rfl (Nat.le_refl _) (fun s hs => hs.elim)
  | answered authorities => exact h.moved rfl (Nat.le_refl _) (fun s hs => .inl hs)

omit [DecidableEq A] in
private theorem attemptSkip_inOrder {attempt : ℕ}
    (h : InOrder ⟨party, .attempting sessionId authorities attempt⟩) :
    InOrder (party.attemptSkip sessionId authorities attempt) := by
  unfold attemptSkip
  split
  · next hfinalized =>
    refine h.moved rfl (Nat.le_refl _) ?_
    intro s hs
    have hsession : s = sessionId := hs
    exact .inr (hsession ▸ hfinalized)
  · split <;> exact h.moved rfl (Nat.le_refl _) (fun s hs => .inl hs)

private theorem join_inOrder {bestChain : Option (AlephData Hash)}
    (h : InOrder ⟨party, .joining sessionId authorities⟩) :
    InOrder (party.join sessionId authorities bestChain) := by
  unfold join
  split
  · exact h.moved rfl (Nat.le_refl _) (fun s hs => .inl hs)
  · split
    · exact h.moved rfl (Nat.le_refl _) (fun s hs => hs.elim)
    · exact h.moved rfl (Nat.le_refl _) (fun s hs => hs.elim)
    · exact h.moved rfl (Nat.le_refl _) (fun s hs => .inl hs)

omit [DecidableEq A] in
private theorem poll_inOrder {maybeNodeId : Option NodeIndex}
    (h : InOrder ⟨party, .waiting sessionId maybeNodeId⟩) :
    InOrder (party.poll sessionId maybeNodeId) := by
  unfold poll
  split
  · next hfinalized =>
    have hover : ∀ s, s = sessionId →
        s.val.toNat + 1 = sessionId.val.toNat ∨
          lastBlockOfSession s party.sessionPeriod ≤ party.client.finalizedNumber := by
      intro s hs
      subst hs
      exact .inr hfinalized
    split <;> exact h.moved rfl (Nat.le_refl _) hover
  · exact h

omit [DecidableEq A] in
theorem leave_frame (party : ConsensusParty Hash A) (sessionId : SessionId) :
    ∃ sessionAuthorities, party.leave sessionId =
      ⟨{ party with sessionAuthorities := sessionAuthorities }, .next (sessionId.val + 1)⟩ := by
  unfold leave
  dsimp only
  split
  · exact ⟨_, rfl⟩
  · exact ⟨party.sessionAuthorities, rfl⟩

omit [DecidableEq A] in
private theorem leave_inOrder (h : InOrder ⟨party, .left sessionId⟩) :
    InOrder (party.leave sessionId) := by
  obtain ⟨sessionAuthorities, hleave⟩ := leave_frame party sessionId
  rw [hleave]
  refine h.moved rfl (Nat.le_refl _) ?_
  intro s hs
  left
  have hs : s.val.toNat + 1 = (sessionId.val + 1).toNat := hs
  rw [UInt32.toNat_add, UInt32.toNat_one] at hs
  have hlt := sessionId.val.toNat_lt
  obtain ⟨v⟩ := s
  obtain ⟨w⟩ := sessionId
  show SessionId.mk v = SessionId.mk w
  rw [SessionId.mk.injEq, ← UInt32.toNat_inj]
  dsimp only at hs hlt
  omega

theorem inOrder_step (h : InOrder task) (hstep : Guarded Step AnswersInTime task event task') :
    InOrder task' := by
  obtain ⟨hanswers, hstep⟩ := hstep
  cases hstep with
  | started => exact start_inOrder _
  | sessionBegun => exact h.moved rfl (Nat.le_refl _) (fun s hs => .inl hs)
  | @genesisAuthorities party sessionId answer =>
    cases answer with
    | none => exact h.moved rfl (Nat.le_refl _) (fun s hs => hs.elim)
    | some authorities => exact h.moved rfl (Nat.le_refl _) (fun s hs => .inl hs)
  | nextSessionAuthorities =>
    apply readNextSessionAuthorities_inOrder h
    intro hfailed
    subst hfailed
    exact hanswers _ _ rfl rfl
  | bestChecked =>
    unfold checkBest
    split <;> exact h.moved rfl (Nat.le_refl _) (fun s hs => .inl hs)
  | attempted => exact attemptSkip_inOrder h
  | joined => exact join_inOrder h
  | polled => exact poll_inOrder h
  | sessionLeft => exact leave_inOrder h
  | clientGrown grows => exact h.moved rfl grows.finalized (fun s hs => .inl hs)

end Steps

section Runs
variable {party : ConsensusParty Hash A} {events : List (Event Hash A)} {task task' : Task Hash A}
  {s sessionId : SessionId} {block : ℕ}

theorem inOrder_of_run (hrun : Run (Guarded Step AnswersInTime) ⟨party, .started⟩ events task) :
    InOrder task := by
  apply hrun.invariant InOrder
  · exact fun s hs => hs.elim
  · exact fun _ _ _ => inOrder_step

/-- Sessions are not skipped as long as the runtime answers. If all failures to answer for
a session come when its last block is finalized, then no session begins before the last
block of the session before it is finalized; and after a failure that comes earlier, the
next session begins too early unless the client moves on first. -/
theorem sessions_not_skipped :
    (∀ s next, s.val.toNat + 1 = next.val.toNat →
      Run (Guarded Step AnswersInTime) ⟨party, .started⟩ (.sessionBegun next :: events) task →
      lastBlockOfSession s task.party.sessionPeriod ≤ task.party.client.finalizedNumber) ∧
    (∀ s next, s.val.toNat + 1 = next.val.toNat → task.position = .reading s →
      Step task (.nextSessionAuthorities block .failed) task' →
      ¬lastBlockOfSession s task.party.sessionPeriod ≤ task.party.client.finalizedNumber →
      ∃ begun, Run Step task' [.sessionBegun next, .sessionLeft] begun ∧
        ¬lastBlockOfSession s begun.party.sessionPeriod ≤ begun.party.client.finalizedNumber) := by
  constructor
  · intro s next hnext hrun
    obtain ⟨before, hbefore, _, hlast⟩ := Run.cons_iff.mp hrun
    cases hlast with
    | sessionBegun => exact inOrder_of_run hbefore s hnext
  · intro s next hnext hposition hstep hearly
    cases hstep with
    | @nextSessionAuthorities party sessionId =>
      cases hposition
      have hval : next.val = s.val + 1 := by
        rw [← UInt32.toNat_inj, UInt32.toNat_add, UInt32.toNat_one, hnext,
          Nat.mod_eq_of_lt next.val.toNat_lt]
      obtain ⟨sessionAuthorities, hleave⟩ := leave_frame party s
      have hleft : Step ⟨party, .left s⟩ .sessionLeft
          ⟨{ party with sessionAuthorities := sessionAuthorities }, .next (s.val + 1)⟩ :=
        hleave ▸ .sessionLeft
      rw [← hval] at hleft
      exact ⟨_, .tail (.tail .refl hleft) .sessionBegun, hearly⟩

end Runs

section Example

/-- A party with sessions of five blocks, of which the block of number 5 is finalized. -/
def secondSession : ConsensusParty ℕ ℕ where
  sessionAuthorities := ∅
  sessionPeriod := ⟨5⟩
  client := Client.ofLine 5 5
  keystore := []
  calls := []

/-- The runtime fails to answer for session 1, and session 2 begins with the last block of
session 1 not finalized. -/
theorem session_skipped_after_failure :
    ∃ task, Run Step ⟨secondSession, .started⟩ [.sessionBegun ⟨2⟩, .sessionLeft,
        .nextSessionAuthorities 4 .failed, .sessionBegun ⟨1⟩, .started] task ∧
      ¬lastBlockOfSession ⟨1⟩ task.party.sessionPeriod ≤ task.party.client.finalizedNumber := by
  have hstarted : Step ⟨secondSession, .started⟩ .started ⟨secondSession, .next 1⟩ := .started
  have hfailed : Step ⟨secondSession, .reading ⟨1⟩⟩ (.nextSessionAuthorities 4 .failed)
      ⟨secondSession, .left ⟨1⟩⟩ :=
    .nextSessionAuthorities (by decide) (by decide)
  have hleft : Step ⟨secondSession, .left ⟨1⟩⟩ .sessionLeft ⟨secondSession, .next 2⟩ :=
    .sessionLeft
  exact ⟨_, .tail (.tail (.tail (.tail (.tail .refl hstarted) .sessionBegun) hfailed) hleft)
    .sessionBegun, by decide⟩

end Example
end AlephNode.ConsensusParty
