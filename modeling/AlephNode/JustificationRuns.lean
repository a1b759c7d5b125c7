import AlephNode.JustificationVerification

/-!
# Runs of the justification handler

An iteration fixes the key box, the last finalized number and the stop height before the
notification comes in. Together they make sure that a block is finalized only under the
authorities of its own session, and that no session is left before its last block is
finalized.
-/
namespace AlephNode.JustificationHandler

variable {Hash A S : Type} [SignatureScheme A S] [MultiKeychain S] [Codec Hash]
  [Codec (SignatureSet S)]

/-- The number of a notification is the number in the header of its block. -/
def NumbersMatch (task : Task Hash A) : Event Hash A S → Prop
  | .notified notification _ _ _ _ =>
    ∀ header, task.handler.client.header notification.hash = some header →
      header.number = notification.number
  | _ => True

/-- The runs in which all notifications name the numbers of their blocks. -/
abbrev MatchingRun (start : Task Hash A) (events : List (Event Hash A S)) (task : Task Hash A) :
    Prop :=
  Run (Guarded Step NumbersMatch) start events task

/-- In an iteration of the run the session map had these authorities for the session. -/
def ReadInRun (start : Task Hash A) (events : List (Event Hash A S)) (session : SessionId)
    (authorities : List A) : Prop :=
  ∃ later earlier task, events = later ++ .iterate :: earlier ∧
    MatchingRun start earlier task ∧
    task.handler.sessionAuthorities.lookup session = some authorities

/-- The numbers of the successful calls, the most recent first. -/
def finalizedNumbers (calls : List (FinalizeCall Hash)) : List ℕ :=
  (calls.filter (·.succeeded)).map (·.number)

/-- The call carries a complete justification by the authorities that were read for the
session of its block. -/
def JustifiedInRun (S : Type) [SignatureScheme A S] [MultiKeychain S] [Codec (SignatureSet S)]
    (start : Task Hash A) (events : List (Event Hash A S)) (call : FinalizeCall Hash) : Prop :=
  ∃ session authorities, ∃ justification : AlephJustification S,
    sessionIdFromBlockNum call.number start.handler.chainCadence.sessionPeriod = .ok session ∧
    ReadInRun start events session authorities ∧
    call.justification = (alephEngineId, Codec.encode justification) ∧
    Complete authorities call.hash justification

structure Consistent (start : Task Hash A) (events : List (Event Hash A S))
    (task : Task Hash A) : Prop where
  period : task.handler.chainCadence = start.handler.chainCadence
  waiting : ∀ keybox lastFinalized stopH, task.loop = .waiting keybox lastFinalized stopH →
    lastFinalized = task.handler.client.finalizedNumber ∧
    ∃ session, sessionIdFromBlockNum (lastFinalized + 1)
        start.handler.chainCadence.sessionPeriod = .ok session ∧
      stopH = lastBlockOfSession session start.handler.chainCadence.sessionPeriod ∧
      ReadInRun start events session keybox.authorities
  justified : ∀ call ∈ task.handler.finalizeCalls, JustifiedInRun S start events call
  increasing : (finalizedNumbers task.handler.finalizeCalls ++
    [start.handler.client.finalizedNumber]).Pairwise (· > ·)
  latest : (finalizedNumbers task.handler.finalizeCalls ++
    [start.handler.client.finalizedNumber]).head? = some task.handler.client.finalizedNumber
  crossed : ∀ a b s : SessionId,
    sessionIdFromBlockNum start.handler.client.finalizedNumber
      start.handler.chainCadence.sessionPeriod = .ok a →
    sessionIdFromBlockNum task.handler.client.finalizedNumber
      start.handler.chainCadence.sessionPeriod = .ok b →
    a.val.toNat ≤ s.val.toNat → s.val.toNat < b.val.toNat →
    lastBlockOfSession s start.handler.chainCadence.sessionPeriod ∈
      finalizedNumbers task.handler.finalizeCalls ++ [start.handler.client.finalizedNumber]

section Steps
variable {start task task' : Task Hash A} {events : List (Event Hash A S)}
  {event : Event Hash A S} {session : SessionId} {authorities : List A}

theorem ReadInRun.cons (h : ReadInRun start events session authorities) (event : Event Hash A S) :
    ReadInRun start (event :: events) session authorities := by
  obtain ⟨later, earlier, task, rfl, hrun, hlookup⟩ := h
  exact ⟨event :: later, earlier, task, rfl, hrun, hlookup⟩

theorem JustifiedInRun.cons {call : FinalizeCall Hash} (h : JustifiedInRun S start events call)
    (event : Event Hash A S) : JustifiedInRun S start (event :: events) call := by
  obtain ⟨session, authorities, justification, hsession, hread, hrest⟩ := h
  exact ⟨session, authorities, justification, hsession, hread.cons event, hrest⟩

theorem consistent_initial (htop : start.loop = .top) (hnone : start.handler.finalizeCalls = []) :
    Consistent start ([] : List (Event Hash A S)) start where
  period := rfl
  waiting _ _ _ h := by simp [htop] at h
  justified := by simp [hnone]
  increasing := by simp [hnone, finalizedNumbers]
  latest := by simp [hnone, finalizedNumbers]
  crossed a b s ha hb has hsb := by
    rw [ha, Except.ok.injEq] at hb
    subst hb
    omega

theorem Consistent.cons (h : Consistent start events task) (event : Event Hash A S) :
    Consistent start (event :: events) task where
  period := h.period
  waiting keybox lastFinalized stopH hwaiting := by
    obtain ⟨hlast, session, hsession, hstop, hread⟩ := h.waiting keybox lastFinalized stopH hwaiting
    exact ⟨hlast, session, hsession, hstop, hread.cons event⟩
  justified call hcall := (h.justified call hcall).cons event
  increasing := h.increasing
  latest := h.latest
  crossed := h.crossed

/-- Consistency is about the calls, the cadence, the finalized number and what is waited
with. -/
theorem Consistent.congr (h : Consistent start events task)
    (hcalls : task'.handler.finalizeCalls = task.handler.finalizeCalls)
    (hcadence : task'.handler.chainCadence = task.handler.chainCadence)
    (hfinalized : task'.handler.client.finalizedNumber = task.handler.client.finalizedNumber)
    (hloop : ∀ keybox lastFinalized stopH, task'.loop = .waiting keybox lastFinalized stopH →
      task.loop = .waiting keybox lastFinalized stopH) :
    Consistent start events task' := by
  obtain ⟨h₁, h₂, h₃, h₄, h₅, h₆⟩ := h
  constructor
  · rwa [hcadence]
  · intro keybox lastFinalized stopH hwaiting
    rw [hfinalized]
    exact h₂ keybox lastFinalized stopH (hloop _ _ _ hwaiting)
  · rwa [hcalls]
  · rwa [hcalls]
  · rwa [hcalls, hfinalized]
  · rwa [hcalls, hfinalized]

section Notified
variable {handler handler' : JustificationHandler Hash A} {keybox : KeyBox A}
  {lastFinalized stopH now : ℕ} {notification : JustificationNotification Hash S}

private theorem window_session
    (h : Consistent start events ⟨handler, .waiting keybox lastFinalized stopH⟩)
    (habove : lastFinalized < notification.number) (hbelow : notification.number ≤ stopH) :
    ∃ session,
      sessionIdFromBlockNum (lastFinalized + 1) start.handler.chainCadence.sessionPeriod =
        .ok session ∧
      sessionIdFromBlockNum notification.number start.handler.chainCadence.sessionPeriod =
        .ok session ∧
      ReadInRun start events session keybox.authorities := by
  obtain ⟨_, session, hsession, hstop, hread⟩ := h.waiting _ _ _ rfl
  exact ⟨session, hsession, (window_in_session hsession habove (hstop ▸ hbelow)).1, hread⟩

private theorem justified_call
    (h : Consistent start events ⟨handler, .waiting keybox lastFinalized stopH⟩)
    (hcomplete : Complete keybox.authorities notification.hash notification.justification)
    (habove : lastFinalized < notification.number) (hbelow : notification.number ≤ stopH)
    (succeeded : Bool) :
    JustifiedInRun S start (event :: events) ⟨notification.hash, notification.number,
      (alephEngineId, Codec.encode notification.justification), succeeded⟩ := by
  obtain ⟨session, _, hnumber, hread⟩ := window_session h habove hbelow
  exact ⟨session, keybox.authorities, notification.justification, hnumber, hread.cons event, rfl,
    hcomplete⟩

private theorem crossed_of_finalized
    (h : Consistent start events ⟨handler, .waiting keybox lastFinalized stopH⟩)
    (habove : lastFinalized < notification.number) (hbelow : notification.number ≤ stopH)
    {a b s : SessionId}
    (ha : sessionIdFromBlockNum start.handler.client.finalizedNumber
      start.handler.chainCadence.sessionPeriod = .ok a)
    (hb : sessionIdFromBlockNum notification.number
      start.handler.chainCadence.sessionPeriod = .ok b)
    (has : a.val.toNat ≤ s.val.toNat) (hsb : s.val.toNat < b.val.toNat) :
    lastBlockOfSession s start.handler.chainCadence.sessionPeriod ∈
      finalizedNumbers handler.finalizeCalls ++ [start.handler.client.finalizedNumber] := by
  obtain ⟨session, hnext, hnumber, _⟩ := window_session h habove hbelow
  rw [hb, Except.ok.injEq] at hnumber
  subst hnumber
  have hlast := (h.waiting _ _ _ rfl).1
  obtain ⟨c, hc⟩ := sessionIdFromBlockNum_returns (sessionIdFromBlockNum_ok.mp ha).1 lastFinalized
  by_cases hsc : s.val.toNat < c.val.toNat
  · exact h.crossed a c s ha (hlast ▸ hc) has hsc
  · rw [lastBlockOfSession_of_boundary hc hnext (Nat.not_lt.mp hsc) hsb, hlast]
    exact List.mem_of_mem_head? h.latest

private theorem consistent_handled
    (h : Consistent start events ⟨handler, .waiting keybox lastFinalized stopH⟩)
    (hmatch : ∀ header, handler.client.header notification.hash = some header →
      header.number = notification.number)
    (hhandled : Handled handler notification keybox.authorities lastFinalized stopH now handler') :
    Consistent start (event :: events) ⟨handler', .top⟩ := by
  cases hhandled with
  | unchanged => exact (h.cons event).congr rfl rfl rfl (by simp)
  | failed complete above below =>
    refine ⟨h.period, by simp, ?_, h.increasing, h.latest, h.crossed⟩
    intro call hcall
    rcases List.mem_cons.mp hcall with rfl | hcall
    · exact justified_call h complete above below false
    · exact (h.justified call hcall).cons event
  | @finalized client complete above below finalizes =>
    obtain ⟨header, hknown, _, _, hnumber⟩ := Client.finalizeBlock_eq_some finalizes
    rw [hmatch header hknown] at hnumber
    have hlast := (h.waiting _ _ _ rfl).1
    obtain ⟨rest, hrest⟩ := List.head?_eq_some_iff.mp h.latest
    refine ⟨h.period, by simp, ?_, ?_, by simp [finalizedNumbers, hnumber], ?_⟩
    · intro call hcall
      rcases List.mem_cons.mp hcall with rfl | hcall
      · exact justified_call h complete above below true
      · exact (h.justified call hcall).cons event
    · -- the head of the list is the finalized number, which is below the new one
      have hincreasing := h.increasing
      have hnew : finalizedNumbers (⟨notification.hash, notification.number,
          (alephEngineId, Codec.encode notification.justification), true⟩ ::
            handler.finalizeCalls) ++ [start.handler.client.finalizedNumber] =
          notification.number :: (finalizedNumbers handler.finalizeCalls ++
            [start.handler.client.finalizedNumber]) := by
        simp [finalizedNumbers]
      rw [hnew]
      refine List.pairwise_cons.mpr ⟨?_, hincreasing⟩
      dsimp only at hrest hincreasing hlast
      rw [hrest] at hincreasing ⊢
      intro m hm
      rcases List.mem_cons.mp hm with rfl | hm
      · omega
      · have hlt := (List.pairwise_cons.mp hincreasing).1 m hm
        omega
    · intro a b s ha hb has hsb
      dsimp only at hb
      rw [hnumber] at hb
      have hcrossed := crossed_of_finalized h above below ha hb has hsb
      simp only [finalizedNumbers, List.filter_cons, if_true, List.map_cons, List.cons_append]
      exact List.mem_cons_of_mem _ hcrossed

end Notified

theorem consistent_step (hrun : MatchingRun start events task) (h : Consistent start events task)
    (hmatch : NumbersMatch task event) (hstep : Step task event task') :
    Consistent start (event :: events) task' := by
  cases hstep with
  | @iterate handler _ run =>
    obtain rfl | ⟨session, keybox, hsession, hlookup, rfl⟩ := iterate_cases run
    · exact (h.cons _).congr rfl rfl rfl (by simp)
    · have hperiod : handler.chainCadence = start.handler.chainCadence := h.period
      refine ⟨h.period, ?_, (h.cons _).justified, h.increasing, h.latest, h.crossed⟩
      rintro keybox' lastFinalized stopH ⟨⟩
      exact ⟨rfl, session, hperiod ▸ hsession, by rw [hperiod], [], events, _, rfl, hrun, hlookup⟩
  | notified run =>
    exact (consistent_handled h hmatch (handle_cases run)).congr (by simp) (by simp) (by simp)
      (by simp)
  | timedOut => exact (h.cons _).congr (by simp) (by simp) (by simp) (by simp)
  | streamEnded => exact (h.cons _).congr rfl rfl rfl (by simp)
  | sessionAuthoritiesChanged => exact (h.cons _).congr rfl rfl rfl (by simp)
  | headersImported => exact (h.cons _).congr rfl rfl rfl (by simp)

theorem consistent_of_run (htop : start.loop = .top) (hnone : start.handler.finalizeCalls = [])
    (hrun : MatchingRun start events task) : Consistent start events task := by
  apply hrun.history_invariant (Consistent start) (consistent_initial htop hnone)
  rintro es t e u hbefore h ⟨hmatch, hstep⟩
  exact consistent_step hbefore h hmatch hstep

end Steps

/-- In every run, each call carries a complete justification by the authorities of the
session of its block; the numbers of successful calls increase; and a session that the
finalized number leaves ends with a block that was finalized by a call, or that was the
finalized block in the beginning. -/
theorem finalization_over_runs {start task : Task Hash A} {events : List (Event Hash A S)}
    (htop : start.loop = .top) (hnone : start.handler.finalizeCalls = [])
    (hrun : MatchingRun start events task) :
    (∀ call ∈ task.handler.finalizeCalls, JustifiedInRun S start events call) ∧
      (finalizedNumbers task.handler.finalizeCalls).Pairwise (· > ·) ∧
      ∀ a b s : SessionId,
        sessionIdFromBlockNum start.handler.client.finalizedNumber
          start.handler.chainCadence.sessionPeriod = .ok a →
        sessionIdFromBlockNum task.handler.client.finalizedNumber
          start.handler.chainCadence.sessionPeriod = .ok b →
        a.val.toNat ≤ s.val.toNat → s.val.toNat < b.val.toNat →
        lastBlockOfSession s start.handler.chainCadence.sessionPeriod =
            start.handler.client.finalizedNumber ∨
          ∃ call ∈ task.handler.finalizeCalls, call.succeeded = true ∧
            call.number = lastBlockOfSession s start.handler.chainCadence.sessionPeriod ∧
            JustifiedInRun S start events call := by
  have h := consistent_of_run htop hnone hrun
  refine ⟨h.justified, (List.pairwise_append.mp h.increasing).1, ?_⟩
  intro a b s ha hb has hsb
  rcases List.mem_append.mp (h.crossed a b s ha hb has hsb) with hcalled | hstart
  · obtain ⟨call, hcall, hnumber⟩ := List.mem_map.mp hcalled
    obtain ⟨hcall, hsucceeded⟩ := List.mem_filter.mp hcall
    exact .inr ⟨call, hcall, hsucceeded, hnumber, h.justified call hcall⟩
  · exact .inl (List.mem_singleton.mp hstart)

section Example
attribute [local instance] nodeIndexCodec

/-- With a period of two, the last block of session 0 is finalized before the first block of
session 1. -/
theorem finalization_over_runs_two : ∃ task : Task ℕ PlainKey,
    task.handler.client.finalizedNumber = 2 ∧
      (finalizedNumbers task.handler.finalizeCalls).Pairwise (· > ·) ∧
      ∃ call ∈ task.handler.finalizeCalls, call.number = 1 := by
  have hrun : ∃ task, MatchingRun ⟨singleAuthority ⟨2⟩, .top⟩
      [.notified (singleNotification 2) 0 true 0 none, .iterate,
        .notified (singleNotification 1) 0 true 0 none, .iterate] task ∧
      task.handler.client.finalizedNumber = 2 :=
    ⟨_, .tail (.tail (.tail (.tail .refl ⟨trivial, .iterate rfl⟩)
      ⟨ofLine_number, .notified rfl⟩) ⟨trivial, .iterate rfl⟩) ⟨ofLine_number, .notified rfl⟩, rfl⟩
  obtain ⟨task, hrun, hnumber⟩ := hrun
  have hall := finalization_over_runs rfl rfl hrun
  refine ⟨task, hnumber, hall.2.1, ?_⟩
  have hcrossed := hall.2.2 ⟨0⟩ ⟨1⟩ ⟨0⟩ rfl (by rw [hnumber]; rfl) (by decide) (by decide)
  rcases hcrossed with hstart | ⟨call, hcall, _, hlast, _⟩
  · exact absurd hstart (by decide)
  · exact ⟨call, hcall, hlast⟩

/-- With a period of one, session 0 ends with the genesis block: finality leaves the session
without a call for its last block. -/
theorem genesis_session_left_without_call : ∃ (events : List (Event ℕ PlainKey PlainSignature))
    (task : Task ℕ PlainKey), MatchingRun ⟨singleAuthority ⟨1⟩, .top⟩ events task ∧
      sessionIdFromBlockNum (singleAuthority ⟨1⟩).client.finalizedNumber ⟨1⟩ = .ok ⟨0⟩ ∧
      sessionIdFromBlockNum task.handler.client.finalizedNumber ⟨1⟩ = .ok ⟨1⟩ ∧
      ∀ call ∈ task.handler.finalizeCalls, call.number ≠ lastBlockOfSession ⟨0⟩ ⟨1⟩ := by
  refine ⟨[.notified (singleNotification 1) 0 true 0 none, .iterate], _,
    .tail (.tail .refl ⟨trivial, .iterate rfl⟩) ⟨ofLine_number, .notified rfl⟩, rfl, rfl, ?_⟩
  decide

end Example
end AlephNode.JustificationHandler
