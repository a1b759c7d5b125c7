import AlephNode.JustificationVerification
import AlephNode.PrunedSessions

/-!
# The authorities that finality needs

The party and the justification handler share the session map and the client. The party
follows its own session counter and the handler follows the finalized number; neither
waits for the other. The authorities that the handler needs stay in the map as long as the
last blocks of the sessions that begin are computed without overflow.
-/
namespace AlephNode

structure Finality (Hash A : Type) where
  party : ConsensusParty.Task Hash A
  handler : JustificationHandler.Task Hash A
  map_shared : handler.handler.sessionAuthorities = party.party.sessionAuthorities
  client_shared : handler.handler.client = party.party.client

namespace Finality

inductive Event (Hash A S : Type) where
  | party (event : ConsensusParty.Event Hash A)
  | handler (event : JustificationHandler.Event Hash A S)

variable {Hash A S : Type} [SignatureScheme A S] [MultiKeychain S] [Codec Hash]
  [Codec (SignatureSet S)] [DecidableEq A]

/-- One of the two moves, and the other sees what is shared. The client does not take back
a finalized block. -/
inductive Step : Finality Hash A → Event Hash A S → Finality Hash A → Prop
  | party {finality finality' : Finality Hash A} {event}
      (step : ConsensusParty.Step finality.party event finality'.party)
      (own : ∀ client, event ≠ .clientGrown client)
      (rest : finality'.handler = { finality.handler with
        handler.sessionAuthorities := finality'.party.party.sessionAuthorities }) :
      Step finality (.party event) finality'
  | handler {finality finality' : Finality Hash A} {event}
      (step : JustificationHandler.Step finality.handler event finality'.handler)
      (own : ∀ sessionAuthorities, event ≠ .sessionAuthoritiesChanged sessionAuthorities)
      (finalized : finality.party.party.client.finalizedNumber ≤
        finality'.party.party.client.finalizedNumber)
      (rest : finality'.party = { finality.party with
        party.client := finality'.handler.handler.client }) :
      Step finality (.handler event) finality'

structure AtStart (finality : Finality Hash A) : Prop where
  position : finality.party.position = .started
  empty : finality.party.party.sessionAuthorities = ∅
  period : 0 < finality.party.party.sessionPeriod.val.toNat

/-- The runtime answers for the finalized blocks, and the last blocks of the sessions that
begin are computed without overflow. -/
def Undisturbed (finality : Finality Hash A) : Event Hash A S → Prop
  | .party event => ConsensusParty.Undisturbed finality.party event
  | .handler _ => True

section Steps
variable {finality finality' start before after : Finality Hash A} {event : Event Hash A S}
  {events earlier later : List (Event Hash A S)} {s current : SessionId} {authorities : List A}

omit [DecidableEq A] in
theorem handler_headers {task task' : JustificationHandler.Task Hash A}
    {event : JustificationHandler.Event Hash A S}
    (hstep : JustificationHandler.Step task event task') :
    task.handler.client.toHeaderStore.Subset task'.handler.client.toHeaderStore := by
  cases hstep with
  | iterate run =>
    obtain rfl | ⟨_, _, _, _, rfl⟩ := JustificationHandler.iterate_cases run
    · exact HeaderStore.Subset.refl _
    · exact HeaderStore.Subset.refl _
  | notified run =>
    rw [JustificationHandler.requestJustification_client]
    cases JustificationHandler.handle_cases run with
    | unchanged | failed => exact HeaderStore.Subset.refl _
    | finalized _ _ _ finalizes =>
      obtain ⟨_, _, hheaders, _⟩ := Client.finalizeBlock_eq_some finalizes
      rw [hheaders]
      exact HeaderStore.Subset.refl _
  | timedOut =>
    rw [JustificationHandler.requestJustification_client]
    exact HeaderStore.Subset.refl _
  | streamEnded => exact HeaderStore.Subset.refl _
  | sessionAuthoritiesChanged => exact HeaderStore.Subset.refl _
  | headersImported grows => exact grows

/-- For the party, a move of the handler is a growth of the client. -/
theorem party_step (hstep : Guarded Step Undisturbed finality event finality') :
    ∃ partyEvent, Guarded ConsensusParty.Step ConsensusParty.Undisturbed finality.party
      partyEvent finality'.party := by
  obtain ⟨hundisturbed, hstep⟩ := hstep
  cases hstep with
  | party step => exact ⟨_, hundisturbed, step⟩
  | handler step _ finalized rest =>
    have hgrows : finality.party.party.client.Grows finality'.party.party.client := by
      refine ⟨?_, finalized⟩
      rw [← finality.client_shared, ← finality'.client_shared]
      exact handler_headers step
    rw [finality'.client_shared] at rest
    refine ⟨.clientGrown finality'.party.party.client, ⟨?_, ?_⟩, ?_⟩
    · intro block hevent
      cases hevent
    · intro sessionId hevent
      cases hevent
    · rw [rest]
      exact .clientGrown hgrows

theorem pruned_of_run (hstart : AtStart start)
    (hrun : Run (Guarded Step Undisturbed) start events finality) :
    ConsensusParty.Pruned finality.party := by
  apply hrun.invariant (fun finality => ConsensusParty.Pruned finality.party)
  · obtain ⟨⟨party, position⟩, handler, hmap, hclient⟩ := start
    obtain ⟨rfl, hempty, hperiod⟩ := hstart
    exact ⟨hperiod, fun s hs => hs.elim, fun s hs => hs.elim, hempty⟩
  · intro finality event finality' hpruned hstep
    obtain ⟨_, hparty⟩ := party_step hstep
    exact ConsensusParty.pruned_step hpruned hparty

/-- The authorities of a session stay, or the session is over. -/
theorem kept_of_run (hpruned : ConsensusParty.Pruned before.party)
    (hbefore : before.party.party.sessionAuthorities.lookup s = some authorities)
    (hrun : Run (Guarded Step Undisturbed) before later after) :
    after.party.party.sessionAuthorities.lookup s = some authorities ∨
      ConsensusParty.Over after.party s := by
  have hkept : ConsensusParty.Pruned after.party ∧
      (after.party.party.sessionAuthorities.lookup s = some authorities ∨
        ConsensusParty.Over after.party s) := by
    apply hrun.invariant (fun finality => ConsensusParty.Pruned finality.party ∧
      (finality.party.party.sessionAuthorities.lookup s = some authorities ∨
        ConsensusParty.Over finality.party s)) ⟨hpruned, .inl hbefore⟩
    intro finality event finality' h hstep
    obtain ⟨_, hparty⟩ := party_step hstep
    exact ⟨ConsensusParty.pruned_step h.1 hparty, h.1.kept_step hparty.2 h.2⟩
  exact hkept.2

/-- The authorities of a session are in the map as long as the next block to be finalized
lies in this session or an earlier one; the key box of the handler can be made of them as
long as the last block of the session is not finalized; and the map does not grow. -/
theorem needed_authorities_kept (hstart : AtStart start) :
    (∀ before after s authorities current, ∀ earlier later : List (Event Hash A S),
      Run (Guarded Step Undisturbed) start earlier before →
      before.party.party.sessionAuthorities.lookup s = some authorities →
      Run (Guarded Step Undisturbed) before later after →
      (sessionIdFromBlockNum (after.party.party.client.finalizedNumber + 1)
          after.party.party.sessionPeriod = .ok current → current.val ≤ s.val →
        after.party.party.sessionAuthorities.lookup s = some authorities) ∧
      (¬lastBlockOfSession s after.party.party.sessionPeriod ≤
          after.party.party.client.finalizedNumber → authorities ≠ [] →
        ∃ keybox, after.handler.handler.sessionKeybox s = .ok (some keybox) ∧
          keybox.authorities = authorities)) ∧
    ∀ finality, ∀ events : List (Event Hash A S),
      Run (Guarded Step Undisturbed) start events finality →
      finality.party.party.sessionAuthorities.keys.card ≤ 21 := by
  constructor
  · intro before after s authorities current earlier later hearlier hbefore hlater
    have hkept := kept_of_run (pruned_of_run hstart hearlier) hbefore hlater
    constructor
    · intro hcurrent hle
      apply hkept.resolve_right
      intro hover
      obtain ⟨_, hdiv⟩ := sessionIdFromBlockNum_ok.mp hcurrent
      rw [ConsensusParty.Over, ← hdiv] at hover
      exact absurd hover (Nat.not_lt.mpr hle)
    · intro hopen hsome
      have hlookup := hkept.resolve_right (fun hover => hopen hover.finalized)
      rw [← after.map_shared] at hlookup
      exact JustificationHandler.sessionKeybox_of_lookup hlookup hsome
  · intro finality events hrun
    exact (pruned_of_run hstart hrun).window.card_le

end Steps

section Example
attribute [local instance] nodeIndexCodec

/-- A node whose client knows the line up to `best`. -/
def starting (period : SessionPeriod) (best finalized : ℕ) : Finality ℕ PlainKey where
  party := ⟨⟨∅, period, .ofLine best finalized, [], []⟩, .started⟩
  handler := ⟨⟨∅, ⟨period, 1⟩, .ofLine best finalized, 0, 0, [], []⟩, .top⟩
  map_shared := rfl
  client_shared := rfl

private def firstSession : Finality ℕ PlainKey :=
  let party : ConsensusParty ℕ PlainKey :=
    ⟨(∅ : FiniteMap SessionId (List PlainKey)).insert ⟨0⟩ [⟨7⟩], ⟨5⟩, .ofLine 9 0, [], []⟩
  ⟨⟨party, .early ⟨0⟩ [⟨7⟩]⟩,
    ⟨⟨party.sessionAuthorities, ⟨⟨5⟩, 1⟩, .ofLine 9 0, 0, 0, [], []⟩, .top⟩, rfl, rfl⟩

private theorem run_to_firstSession : Run (Guarded (Step (S := PlainSignature)) Undisturbed)
    (starting ⟨5⟩ 9 0) [.party (.genesisAuthorities (some [⟨7⟩])), .party (.sessionBegun ⟨0⟩),
      .party .started] firstSession := by
  let start : Finality ℕ PlainKey := starting ⟨5⟩ 9 0
  let next : Finality ℕ PlainKey := { start with party.position := .next 0 }
  let reading : Finality ℕ PlainKey := { start with party.position := .reading ⟨0⟩ }
  have hstarted : Step (S := PlainSignature) start (.party .started) next :=
    .party .started nofun rfl
  have hbegun : Step (S := PlainSignature) next (.party (.sessionBegun ⟨0⟩)) reading :=
    .party .sessionBegun nofun rfl
  have hread : Step (S := PlainSignature) reading
      (.party (.genesisAuthorities (some [⟨7⟩]))) firstSession :=
    .party (.genesisAuthorities rfl) nofun rfl
  have hfits : ConsensusParty.Undisturbed next.party (.sessionBegun ⟨0⟩) := by
    refine ⟨nofun, ?_⟩
    intro sessionId h
    cases h
    show (0 + 1) * 5 < 2 ^ 32
    decide
  have hcalm : ConsensusParty.Undisturbed start.party .started :=
    ⟨nofun, nofun⟩
  have hcalm' : ConsensusParty.Undisturbed reading.party (.genesisAuthorities (some [⟨7⟩])) :=
    ⟨nofun, nofun⟩
  exact .tail (.tail (.tail .refl ⟨hcalm, hstarted⟩) ⟨hfits, hbegun⟩) ⟨hcalm', hread⟩

private theorem exists_block_finalized : ∃ finality : Finality ℕ PlainKey,
    Run (Guarded Step Undisturbed) firstSession
      [.handler (.notified (JustificationHandler.singleNotification 1) 0 true 0 none),
        .handler .iterate] finality ∧
    finality.party.party.client.finalizedNumber = 1 ∧
    finality.party.party.sessionPeriod = ⟨5⟩ := by
  let waiting : Finality ℕ PlainKey := { firstSession with
    handler.loop := .waiting ⟨⟨0⟩, ⟨7⟩, [⟨7⟩]⟩ 0 4 }
  have hiterate : Step (S := PlainSignature) firstSession (.handler .iterate) waiting :=
    .handler (.iterate rfl) nofun (Nat.le_refl _) rfl
  have hhandled : ∃ handler, waiting.handler.handler.handleJustificationNotification
        (JustificationHandler.singleNotification 1) ⟨⟨0⟩, ⟨7⟩, [⟨7⟩]⟩ 0 4 0 true = .ok handler ∧
      handler.client.finalizedNumber = 1 ∧
      handler.sessionAuthorities = firstSession.party.party.sessionAuthorities :=
    ⟨_, rfl, rfl, rfl⟩
  obtain ⟨handler, hhandled, hnumber, hmap⟩ := hhandled
  let finalized : Finality ℕ PlainKey :=
    ⟨{ firstSession.party with party.client := (handler.requestJustification 0 none).client },
      ⟨handler.requestJustification 0 none, .top⟩, by simpa using hmap, rfl⟩
  have hfinalized : finalized.party.party.client.finalizedNumber = 1 := by
    simpa [finalized] using hnumber
  have hnotified : Step waiting
      (.handler (.notified (JustificationHandler.singleNotification 1) 0 true 0 none)) finalized :=
    .handler (.notified hhandled) nofun (hfinalized ▸ Nat.zero_le 1) rfl
  exact ⟨finalized, .tail (.tail .refl ⟨trivial, hiterate⟩) ⟨trivial, hnotified⟩, hfinalized, rfl⟩

theorem needed_authorities_kept_single :
    AtStart (starting ⟨5⟩ 9 0) ∧ ∃ finality : Finality ℕ PlainKey,
      finality.party.party.client.finalizedNumber = 1 ∧
      finality.party.party.sessionAuthorities.lookup ⟨0⟩ = some [⟨7⟩] ∧
      ∃ keybox, finality.handler.handler.sessionKeybox ⟨0⟩ = .ok (some keybox) ∧
        keybox.authorities = [⟨7⟩] := by
  have hstart : AtStart (starting ⟨5⟩ 9 0) := ⟨rfl, rfl, by decide⟩
  obtain ⟨finality, hrun, hnumber, hperiod⟩ := exists_block_finalized
  obtain ⟨hlookup, hkeybox⟩ := (needed_authorities_kept hstart).1 _ finality ⟨0⟩ [⟨7⟩] ⟨0⟩ _ _
    run_to_firstSession rfl hrun
  refine ⟨hstart, finality, hnumber, hlookup ?_ (Nat.le_refl _), hkeybox ?_ (by simp)⟩
  · rw [hnumber, hperiod]
    exact sessionIdFromBlockNum_ok.mpr ⟨by decide, by decide⟩
  · rw [hnumber, hperiod]
    decide

def AlwaysAnswered {Hash A S : Type} (_ : Finality Hash A) : Event Hash A S → Prop
  | .party (.nextSessionAuthorities _ answer) => ∃ authorities, answer = .answered authorities
  | _ => True

def OnItsOwn {Hash A : Type} (_ : ConsensusParty.Task Hash A) : ConsensusParty.Event Hash A → Prop
  | .nextSessionAuthorities _ answer => ∃ authorities, answer = .answered authorities
  | .clientGrown _ => False
  | _ => True

private theorem exists_run_of_party {start : Finality ℕ PlainKey}
    {events : List (ConsensusParty.Event ℕ PlainKey)} {task : ConsensusParty.Task ℕ PlainKey}
    (hrun : Run (Guarded ConsensusParty.Step OnItsOwn) start.party events task) :
    ∃ finality, finality.party = task ∧ Run (Guarded (Step (S := PlainSignature)) AlwaysAnswered)
      start (events.map .party) finality := by
  induction hrun with
  | refl => exact ⟨start, rfl, .refl⟩
  | @tail _ _ event task' _ last ih =>
    obtain ⟨finality, rfl, hrun⟩ := ih
    obtain ⟨hown, hstep⟩ := last
    have hclient : task'.party.client = finality.party.party.client := by
      apply (ConsensusParty.step_frame hstep).2.resolve_right
      rintro ⟨rfl, _⟩
      exact hown
    let finality' : Finality ℕ PlainKey := ⟨task', { finality.handler with
      handler.sessionAuthorities := task'.party.sessionAuthorities }, rfl,
      finality.client_shared.trans hclient.symm⟩
    have hevent : ∀ client, event ≠ .clientGrown client := by
      rintro client rfl
      exact hown
    have hanswered : AlwaysAnswered (S := PlainSignature) finality (.party event) := by
      cases event with
      | nextSessionAuthorities => exact hown
      | _ => trivial
    exact ⟨finality', rfl, hrun.tail ⟨hanswered, .party hstep hevent rfl⟩⟩

private theorem skip_session (party : ConsensusParty ℕ PlainKey) {s : SessionId} (hs : s ≠ ⟨0⟩)
    (hover : lastBlockOfSession s party.sessionPeriod ≤ party.client.finalizedNumber)
    (hbest : party.client.finalizedNumber ≤ party.client.bestNumber) :
    ∃ events, Run (Guarded ConsensusParty.Step OnItsOwn) ⟨party, .next s.val⟩ events
      ⟨{ party with sessionAuthorities := party.sessionAuthorities.insert s [⟨7⟩] }, .left s⟩ := by
  have hbegun : Run (Guarded ConsensusParty.Step OnItsOwn) ⟨party, .next s.val⟩
      [.sessionBegun s] ⟨party, .reading s⟩ := .tail .refl ⟨trivial, .sessionBegun⟩
  have hanswered : OnItsOwn ⟨party, .reading s⟩
      (.nextSessionAuthorities (lastBlockOfSession ⟨s.val - 1⟩ party.sessionPeriod)
        (.answered [⟨7⟩])) := ⟨_, rfl⟩
  have hread := hbegun.tail ⟨hanswered, .nextSessionAuthorities hs rfl⟩
  have hchecked := hread.tail (And.symm ⟨.bestChecked, trivial⟩)
  rw [ConsensusParty.checkBest, if_pos (hover.trans hbest)] at hchecked
  have hattempted := hchecked.tail (And.symm ⟨.attempted, trivial⟩)
  rw [ConsensusParty.attemptSkip, if_pos hover] at hattempted
  exact ⟨_, hattempted⟩

private theorem skip_sessions (party : ConsensusParty ℕ PlainKey) {n : ℕ} (hn : n + 1 < 2 ^ 32)
    (hover : ∀ s : SessionId, s.val.toNat ≤ n + 1 →
      lastBlockOfSession s party.sessionPeriod ≤ party.client.finalizedNumber)
    (hbest : party.client.finalizedNumber ≤ party.client.bestNumber) :
    ∃ events, ∃ party' : ConsensusParty ℕ PlainKey,
      Run (Guarded ConsensusParty.Step OnItsOwn) ⟨party, .left ⟨1⟩⟩ events
        ⟨party', .left ⟨UInt32.ofNat (n + 1)⟩⟩ ∧
      party'.sessionPeriod = party.sessionPeriod ∧ party'.client = party.client := by
  induction n with
  | zero => exact ⟨[], party, .refl, rfl, rfl⟩
  | succ n ih =>
    obtain ⟨earlier, before, hearlier, hperiod, hclient⟩ :=
      ih (by omega) (fun s hs => hover s (by omega))
    have hval : (UInt32.ofNat (n + 2)).toNat = n + 2 := UInt32.toNat_ofNat_of_lt' hn
    have hne : (⟨UInt32.ofNat (n + 2)⟩ : SessionId) ≠ ⟨0⟩ := by
      intro hzero
      rw [SessionId.mk.injEq] at hzero
      rw [hzero] at hval
      exact Nat.succ_ne_zero _ hval.symm
    obtain ⟨sessionAuthorities, hleave⟩ :=
      ConsensusParty.leave_frame before ⟨UInt32.ofNat (n + 1)⟩
    have hleft := hearlier.tail (And.symm ⟨.sessionLeft, trivial⟩)
    rw [hleave, ← UInt32.ofNat_one, ← UInt32.ofNat_add] at hleft
    obtain ⟨later, hlater⟩ := skip_session (s := ⟨UInt32.ofNat (n + 2)⟩)
      { before with sessionAuthorities := sessionAuthorities } hne
      (by
        rw [hperiod, hclient]
        exact hover _ hval.le)
      (hclient ▸ hbest)
    exact ⟨_, _, Run.append_iff.mpr ⟨_, hleft, hlater⟩, hperiod, hclient⟩

private theorem overflowing_session_pruned :
    ∃ before after : Finality ℕ PlainKey, ∃ earlier later : List (Event ℕ PlainKey PlainSignature),
      Run (Guarded Step AlwaysAnswered) (starting ⟨2147483649⟩ 2147483698 2147483698) earlier before ∧
      before.party.party.sessionAuthorities.lookup ⟨1⟩ = some [⟨7⟩] ∧
      Run (Guarded Step AlwaysAnswered) before later after ∧
      sessionIdFromBlockNum (after.party.party.client.finalizedNumber + 1) ⟨2147483649⟩ = .ok ⟨1⟩ ∧
      after.party.party.sessionAuthorities.lookup ⟨1⟩ = none := by
  have hover : ∀ s : SessionId, s.val.toNat ≤ 20 →
      lastBlockOfSession s ⟨2147483649⟩ ≤ 2147483698 := by
    intro s hs
    have hall : ∀ i : Fin 21, lastBlockOfSession ⟨UInt32.ofNat i⟩ ⟨2147483649⟩ ≤ 2147483698 := by
      decide
    have h := hall ⟨s.val.toNat, Nat.lt_succ_of_le hs⟩
    rwa [UInt32.ofNat_toNat] at h
  let start : Finality ℕ PlainKey := starting ⟨2147483649⟩ 2147483698 2147483698
  have hstarted : Run (Guarded ConsensusParty.Step OnItsOwn) start.party [.started]
      ⟨start.party.party, .next 1⟩ := .tail .refl (And.symm ⟨.started, trivial⟩)
  obtain ⟨reading, hreading⟩ := skip_session (s := ⟨1⟩) start.party.party (by decide)
    (hover _ (by decide)) (Nat.le_refl _)
  obtain ⟨before, hbefore, hearlier⟩ :=
    exists_run_of_party (Run.append_iff.mpr ⟨_, hstarted, hreading⟩)
  obtain ⟨skipping, party, hskipping, hperiod, hclient⟩ := skip_sessions (n := 19)
    before.party.party (by decide) (by rw [hbefore]; exact hover)
    (by rw [hbefore]; exact Nat.le_refl _)
  have hleft := hskipping.tail (And.symm ⟨.sessionLeft, trivial⟩)
  have hposition : before.party = ⟨before.party.party, .left ⟨1⟩⟩ := by rw [hbefore]
  rw [← hposition] at hleft
  obtain ⟨after, hafter, hlater⟩ := exists_run_of_party hleft
  refine ⟨before, after, _, _, hearlier, ?_, hlater, ?_, ?_⟩
  · rw [hbefore]
    exact FiniteMap.lookup_insert _ _ _ _
  · obtain ⟨_, hleave⟩ := ConsensusParty.leave_frame party ⟨UInt32.ofNat 20⟩
    rw [hafter, hleave]
    dsimp only
    rw [hclient, hbefore]
    exact sessionIdFromBlockNum_ok.mpr ⟨by decide, by decide⟩
  · rw [hafter, ConsensusParty.leave, if_pos (by decide), ConsensusParty.pruneSessionData,
      FiniteMap.lookup_retain]
    apply Option.filter_eq_none_iff.mpr
    intro authorities _
    decide

private theorem empty_session_panics :
    ∃ finality : Finality ℕ PlainKey, ∃ events : List (Event ℕ PlainKey PlainSignature),
      Run (Guarded Step AlwaysAnswered) (starting ⟨5⟩ 0 0) events finality ∧
      finality.party.party.sessionAuthorities.lookup ⟨0⟩ = some [] ∧
      sessionIdFromBlockNum (finality.party.party.client.finalizedNumber + 1) ⟨5⟩ = .ok ⟨0⟩ ∧
      finality.handler.handler.sessionKeybox ⟨0⟩ = .error .indexOutOfBounds := by
  let start : Finality ℕ PlainKey := starting ⟨5⟩ 0 0
  have hstarted : Run (Guarded ConsensusParty.Step OnItsOwn) start.party [.started]
      ⟨start.party.party, .next 0⟩ := .tail .refl (And.symm ⟨.started, trivial⟩)
  have hbegun := hstarted.tail (And.symm ⟨.sessionBegun, trivial⟩)
  have hbegun' : Run (Guarded ConsensusParty.Step OnItsOwn) start.party [.sessionBegun ⟨0⟩, .started]
      ⟨start.party.party, .reading ⟨0⟩⟩ := hbegun
  have hanswered : ConsensusParty.Step ⟨start.party.party, .reading ⟨0⟩⟩
      (.genesisAuthorities (some [])) _ := .genesisAuthorities rfl
  have hread := hbegun'.tail (And.symm ⟨hanswered, trivial⟩)
  obtain ⟨finality, hparty, hrun⟩ := exists_run_of_party hread
  have hlookup : finality.party.party.sessionAuthorities.lookup ⟨0⟩ = some [] := by
    rw [hparty]
    exact FiniteMap.lookup_insert _ _ _ _
  refine ⟨finality, _, hrun, hlookup, ?_, ?_⟩
  · rw [hparty]
    exact sessionIdFromBlockNum_ok.mpr ⟨by decide, by decide⟩
  · rw [← finality.map_shared] at hlookup
    rw [JustificationHandler.sessionKeybox, hlookup]
    rfl

/-- The runtime always answers, and yet no key box can be made for the session that the
handler waits for: when the last blocks of sessions overflow, the party skips twenty sessions
at once and removes it; and when the session has no authorities, making the key box panics. -/
theorem needed_authorities_lost :
    (∃ before after : Finality ℕ PlainKey, ∃ earlier later : List (Event ℕ PlainKey PlainSignature),
      Run (Guarded Step AlwaysAnswered) (starting ⟨2147483649⟩ 2147483698 2147483698) earlier before ∧
      before.party.party.sessionAuthorities.lookup ⟨1⟩ = some [⟨7⟩] ∧
      Run (Guarded Step AlwaysAnswered) before later after ∧
      sessionIdFromBlockNum (after.party.party.client.finalizedNumber + 1) ⟨2147483649⟩ = .ok ⟨1⟩ ∧
      after.party.party.sessionAuthorities.lookup ⟨1⟩ = none) ∧
    ∃ finality : Finality ℕ PlainKey, ∃ events : List (Event ℕ PlainKey PlainSignature),
      Run (Guarded Step AlwaysAnswered) (starting ⟨5⟩ 0 0) events finality ∧
      finality.party.party.sessionAuthorities.lookup ⟨0⟩ = some [] ∧
      sessionIdFromBlockNum (finality.party.party.client.finalizedNumber + 1) ⟨5⟩ = .ok ⟨0⟩ ∧
      finality.handler.handler.sessionKeybox ⟨0⟩ = .error .indexOutOfBounds :=
  ⟨overflowing_session_pruned, empty_session_panics⟩

end Example
end Finality
end AlephNode
