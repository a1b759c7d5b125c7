import AlephNode.FinalityLogs
import AlephNode.NeededAuthorities
import AlephNode.PartyProgress

/-!
# Finality does not get stuck

The party waits for the last block of its session before it reads the next authorities, and
the handler waits for the authorities of the session of the next block. They do not wait for
each other: at every point of a run in which the party is served, whatever log of finality
continues from there can be finalized, over any number of sessions.
-/
namespace AlephNode.Finality

open JustificationHandler (Genuinely Logged)

variable {Hash A S : Type} [SignatureScheme A S] [MultiKeychain S] [Codec Hash]
  [Codec (SignatureSet S)] [DecidableEq A]

/-- The party is served, notifications are genuine, and their streams do not end. -/
def Served (authoritiesOf : SessionId → List A) (finality : Finality Hash A) :
    Event Hash A S → Prop
  | .party event => ConsensusParty.Served authoritiesOf finality.party event
  | .handler event => Genuinely authoritiesOf finality.handler event ∧ event ≠ .streamEnded

/-- What holds at every point of a run in which the party is served. -/
structure Sound (S : Type) [SignatureScheme A S] [MultiKeychain S] [Codec (SignatureSet S)]
    (authoritiesOf : SessionId → List A) (start finality : Finality Hash A) : Prop where
  pruned : ConsensusParty.Pruned finality.party
  placed : ConsensusParty.Placed authoritiesOf finality.party
  logged : Logged S authoritiesOf start.handler finality.handler
  period : start.handler.handler.chainCadence.sessionPeriod = finality.party.party.sessionPeriod
  loop : finality.handler.loop ≠ .ended

section Steps
variable {authoritiesOf : SessionId → List A} {start finality finality' : Finality Hash A}
  {event : Event Hash A S} {events : List (Event Hash A S)}

theorem sound_initial (hstart : AtStart start) (htop : start.handler.loop = .top)
    (hnone : start.handler.handler.finalizeCalls = [])
    (hperiod : start.handler.handler.chainCadence.sessionPeriod = start.party.party.sessionPeriod) :
    Sound S authoritiesOf start start := by
  have hempty : JustificationHandler.Lists start.party.party.sessionAuthorities authoritiesOf := by
    intro session authorities hlookup
    rw [hstart.empty] at hlookup
    cases hlookup
  have hposition := hstart.position
  refine ⟨pruned_of_run (S := S) hstart .refl, ⟨?_, ?_, hempty, ?_⟩,
    JustificationHandler.logged_initial htop hnone (start.map_shared ▸ hempty), hperiod, ?_⟩
  · rw [hposition]
    nofun
  · rw [hposition]
    exact fun s hs => hs.elim
  · rw [hposition]
    exact fun s hs => hs.elim
  · rw [htop]
    nofun

omit [DecidableEq A] in
theorem loop_goes_on {task task' : JustificationHandler.Task Hash A}
    {event : JustificationHandler.Event Hash A S} (hloop : task.loop ≠ .ended)
    (hstep : JustificationHandler.Step task event task') (hevent : event ≠ .streamEnded) :
    task'.loop ≠ .ended := by
  cases hstep with
  | iterate run =>
    rcases JustificationHandler.iterate_cases run with rfl | ⟨_, _, _, _, rfl⟩
    · nofun
    · nofun
  | notified => nofun
  | timedOut => nofun
  | streamEnded => exact absurd rfl hevent
  | sessionAuthoritiesChanged => exact hloop
  | headersImported => exact hloop

theorem sound_step (h : Sound S authoritiesOf start finality)
    (hstep : Guarded Step (Served authoritiesOf) finality event finality') :
    Sound S authoritiesOf start finality' := by
  obtain ⟨hserved, hstep⟩ := hstep
  cases hstep with
  | party step own rest =>
    have hplaced := ConsensusParty.placed_step h.pruned h.placed ⟨hserved, step⟩
    have hchanged : JustificationHandler.Step finality.handler
        (.sessionAuthoritiesChanged finality'.party.party.sessionAuthorities :
          JustificationHandler.Event Hash A S) finality'.handler :=
      rest ▸ .sessionAuthoritiesChanged _
    refine ⟨?_, hplaced, ?_, ?_, ?_⟩
    · exact ConsensusParty.pruned_step h.pruned ⟨hserved.undisturbed step, step⟩
    · exact JustificationHandler.logged_step h.logged (And.symm ⟨hchanged, hplaced.lists⟩)
    · exact h.period.trans (ConsensusParty.step_frame step).1.symm
    · exact loop_goes_on h.loop hchanged nofun
  | @handler _ handlerEvent step own finalized rest =>
    have hundisturbed : Guarded Step Undisturbed finality (.handler handlerEvent) finality' :=
      ⟨trivial, .handler step own finalized rest⟩
    obtain ⟨_, hparty⟩ := party_step hundisturbed
    rw [rest] at finalized
    refine ⟨ConsensusParty.pruned_step h.pruned hparty, ?_, ?_, ?_, ?_⟩
    · rw [rest]
      exact h.placed.grown finalized
    · exact JustificationHandler.logged_step h.logged ⟨hserved.1, step⟩
    · rw [rest]
      exact h.period
    · exact loop_goes_on h.loop step hserved.2

theorem sound_of_run (h : Sound S authoritiesOf start finality)
    (hrun : Run (Guarded Step (Served authoritiesOf)) finality events finality') :
    Sound S authoritiesOf start finality' :=
  hrun.invariant (Sound S authoritiesOf start) h (fun _ _ _ h hstep => sound_step h hstep)

/-- When the party moves on its own, the handler sees the new map. -/
theorem run_of_gets {task : ConsensusParty.Task Hash A}
    (h : ConsensusParty.Gets authoritiesOf finality.party task) :
    ∃ finality', (∃ events : List (Event Hash A S),
        Run (Guarded Step (Served authoritiesOf)) finality events finality') ∧
      finality'.party = task ∧ finality'.handler = { finality.handler with
        handler.sessionAuthorities := task.party.sessionAuthorities } := by
  obtain ⟨partyEvents, hrun⟩ := h
  induction hrun with
  | refl =>
    refine ⟨finality, ⟨[], .refl⟩, rfl, ?_⟩
    rw [← finality.map_shared]
  | @tail _ middle event task' _ last ih =>
    obtain ⟨before, ⟨events, hbefore⟩, rfl, hhandler⟩ := ih
    obtain ⟨hserved, hstep⟩ := last
    have hclient : task'.party.client = before.party.party.client := by
      rcases (ConsensusParty.step_frame hstep).2 with hclient | ⟨rfl, _⟩
      · exact hclient
      · exact hserved.elim
    let after : Finality Hash A := ⟨task', { before.handler with
      handler.sessionAuthorities := task'.party.sessionAuthorities }, rfl,
      before.client_shared.trans hclient.symm⟩
    have hown : ∀ client, event ≠ .clientGrown client := by
      rintro client rfl
      exact hserved
    have hafter : Step before (.party event : Event Hash A S) after := .party hstep hown rfl
    refine ⟨after, ⟨.party event :: events, hbefore.tail ⟨hserved, hafter⟩⟩, rfl, ?_⟩
    show { before.handler with
      handler.sessionAuthorities := task'.party.sessionAuthorities } = _
    rw [hhandler]

end Steps

structure CanFinalize (S : Type) [SignatureScheme A S] [MultiKeychain S] [Codec (SignatureSet S)]
    (authoritiesOf : SessionId → List A) (finality : Finality Hash A)
    (log : List (FinalizeCall Hash)) (finality' : Finality Hash A) : Prop where
  run : ∃ events : List (Event Hash A S),
    Run (Guarded Step (Served authoritiesOf)) finality events finality'
  finalizeCalls : finality'.handler.handler.finalizeCalls =
    log ++ finality.handler.handler.finalizeCalls
  latest : finality'.party.party.client.finalizedNumber =
    lastNumber finality.party.party.client.finalizedNumber log
  headers : finality'.party.party.client.toHeaderStore =
    finality.party.party.client.toHeaderStore

section Progress
variable {authoritiesOf : SessionId → List A} {start finality finality' : Finality Hash A}
  {events : List (Event Hash A S)} {log : List (FinalizeCall Hash)} {call : FinalizeCall Hash}
  {session : SessionId}

/-- The handler gets to wait with the authorities of the session of the next block. -/
theorem Sound.waits (h : Sound S authoritiesOf start finality)
    (hsession : sessionIdFromBlockNum (finality.party.party.client.finalizedNumber + 1)
      start.handler.handler.chainCadence.sessionPeriod = .ok session)
    (hfits : ConsensusParty.Fits session start.handler.handler.chainCadence.sessionPeriod)
    (hsome : authoritiesOf session ≠ []) :
    ∃ waiting keybox, CanFinalize S authoritiesOf finality [] waiting ∧
      waiting.handler.loop = .waiting keybox finality.party.party.client.finalizedNumber
        (lastBlockOfSession session start.handler.handler.chainCadence.sessionPeriod) ∧
      keybox.authorities = authoritiesOf session := by
  have hlogged := h.logged.waiting
  have hloop := h.loop
  cases hposition : finality.handler.loop with
  | ended => exact absurd hposition hloop
  | waiting keybox lastFinalized stopH =>
    obtain ⟨rfl, session', hsession', rfl, hauthorities⟩ := hlogged _ _ _ hposition
    rw [finality.client_shared] at hsession' hposition
    rw [hsession, Except.ok.injEq] at hsession'
    subst hsession'
    exact ⟨finality, keybox, ⟨⟨[], .refl⟩, rfl, rfl, rfl⟩, hposition, hauthorities⟩
  | top =>
    have hnext : session.val.toNat = finality.party.party.nextSession := by
      rw [(sessionIdFromBlockNum_ok.mp hsession).2, h.period, ConsensusParty.nextSession]
    obtain ⟨task, hgets, hknows⟩ :=
      ConsensusParty.gets_authorities h.pruned h.placed hnext (h.period ▸ hfits)
    have hclient := hgets.frame.1
    obtain ⟨known, ⟨events, hrun⟩, rfl, hhandler⟩ := run_of_gets (S := S) hgets
    have hcadence : known.handler.handler.chainCadence = start.handler.handler.chainCadence := by
      rw [hhandler]
      exact h.logged.period
    have hcalls : known.handler.handler.finalizeCalls = finality.handler.handler.finalizeCalls := by
      rw [hhandler]
    have hloop : known.handler.loop = .top := by
      rw [hhandler]
      exact hposition
    have htop : known.handler = ⟨known.handler.handler, .top⟩ := by rw [← hloop]
    have hiterate : ∃ keybox, keybox.authorities = authoritiesOf session ∧
        known.handler.handler.iterate = .ok ⟨known.handler.handler, .waiting keybox
          known.handler.handler.client.finalizedNumber
          (lastBlockOfSession session known.handler.handler.chainCadence.sessionPeriod)⟩ := by
      apply JustificationHandler.iterate_of_some
      · rw [known.client_shared, hclient, hcadence, hsession]
      · rw [known.map_shared, hknows]
      · exact hsome
    obtain ⟨keybox, hauthorities, hiterate⟩ := hiterate
    rw [hcadence, known.client_shared, hclient] at hiterate
    let waiting : Finality Hash A := { known with
      handler.loop := .waiting keybox finality.party.party.client.finalizedNumber
        (lastBlockOfSession session start.handler.handler.chainCadence.sessionPeriod) }
    have hrest : waiting.party =
        { known.party with party.client := waiting.handler.handler.client } := by
      show known.party = { known.party with party.client := known.handler.handler.client }
      rw [known.client_shared]
    have hstep : Step known (.handler .iterate : Event Hash A S) waiting :=
      .handler (htop ▸ .iterate hiterate) (by simp) (Nat.le_refl _) hrest
    refine ⟨waiting, keybox, ⟨⟨_, hrun.tail (And.symm ⟨hstep, trivial, ?_⟩)⟩, hcalls, ?_, ?_⟩, rfl,
      hauthorities⟩
    · simp
    · rw [lastNumber_nil, ← hclient]
    · rw [← hclient]

end Progress
section Example
attribute [local instance] nodeIndexCodec

end Example
end AlephNode.Finality
