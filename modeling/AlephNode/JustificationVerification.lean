import AlephNode.JustificationHandler
import Mathlib.Data.Finset.Card

/-!
# Justifications from outside

A justification has as many entries as its sender likes. Verifying it indexes the list of
authorities with the positions of the present entries, so it panics if it gets to a
position beyond the list; otherwise an incomplete justification changes nothing.
-/
namespace AlephNode

variable {Hash A S : Type} [SignatureScheme A S] [MultiKeychain S] [Codec Hash]
  {authorities : List A} {hash : Hash} {justification : AlephJustification S} {keybox : KeyBox A}

def Complete (authorities : List A) (hash : Hash) (justification : AlephJustification S) : Prop :=
  MultiKeychain.quorum S authorities.length ≤ justification.signature.present.length ∧
    ∀ e ∈ justification.signature.present, Genuine authorities (Codec.encode hash) e

/-- There are enough entries, some of them beyond the authorities, and none of the others
stops the verification. -/
def ReachesBeyond (authorities : List A) (hash : Hash) (justification : AlephJustification S) :
    Prop :=
  MultiKeychain.quorum S authorities.length ≤ justification.signature.present.length ∧
    (∃ e ∈ justification.signature.present, authorities.length ≤ e.1.val) ∧
    ∀ e ∈ justification.signature.present, e.1.val < authorities.length →
      Genuine authorities (Codec.encode hash) e

/-- The positions of a complete multisignature are those of more than two thirds of the
authorities. -/
theorem Complete.exists_quorum (h : Complete authorities hash justification) :
    ∃ quorum ⊆ Finset.range authorities.length, 2 * authorities.length / 3 < quorum.card ∧
      ∀ i ∈ quorum, ∃ e ∈ justification.signature.present, e.1.val = i ∧
        Genuine authorities (Codec.encode hash) e := by
  obtain ⟨hmany, hgenuine⟩ := h
  have hnodup : (justification.signature.present.map (fun e => e.1.val)).Nodup := by
    apply List.Pairwise.map _ _ (SignatureSet.present_sorted _)
    exact fun _ _ hlt => Nat.ne_of_lt hlt
  refine ⟨(justification.signature.present.map (fun e => e.1.val)).toFinset, ?_, ?_, ?_⟩
  · intro i hi
    obtain ⟨e, he, rfl⟩ := List.mem_map.mp (List.mem_toFinset.mp hi)
    exact Finset.mem_range.mpr (hgenuine e he).inRange
  · rw [List.toFinset_card_of_nodup hnodup, List.length_map]
    exact (MultiKeychain.two_thirds_lt_quorum _).trans_le hmany
  · intro i hi
    obtain ⟨e, he, rfl⟩ := List.mem_map.mp (List.mem_toFinset.mp hi)
    exact ⟨e, he, rfl, hgenuine e he⟩

/-- A complete multisignature has no entry beyond the authorities. -/
theorem Complete.not_reachesBeyond (h : Complete authorities hash justification) :
    ¬ReachesBeyond authorities hash justification := by
  intro hreaches
  obtain ⟨_, ⟨e, he, hout⟩, _⟩ := hreaches
  exact absurd (h.2 e he).inRange (Nat.not_lt.mpr hout)

/-- There is a complete multisignature only if there are authorities. -/
theorem Complete.authorities_ne_nil (h : Complete authorities hash justification) :
    authorities ≠ [] := by
  obtain ⟨quorum, hsubset, hcard, _⟩ := h.exists_quorum
  rintro rfl
  rw [List.length_nil, Finset.range_zero, Finset.subset_empty] at hsubset
  rw [hsubset, Finset.card_empty] at hcard
  exact absurd hcard (Nat.not_lt_zero _)

namespace AlephJustification

theorem verify_eq_true :
    justification.verify hash keybox = .ok true ↔ Complete keybox.authorities hash justification := by
  by_cases hmany : MultiKeychain.quorum S keybox.nodeCount ≤ justification.signature.present.length
  · rw [verify, MultiKeychain.enough _ _ _ hmany, SignatureSet.verifyInOrder_eq_true, Complete]
    exact ⟨fun h => ⟨hmany, h⟩, fun h => h.2⟩
  · rw [verify, MultiKeychain.too_few _ _ _ (Nat.not_le.mp hmany)]
    simp only [Except.ok.injEq, Bool.false_eq_true, false_iff]
    exact fun h => hmany h.1

theorem verify_returns :
    Returns (justification.verify hash keybox) ↔
      ¬ReachesBeyond keybox.authorities hash justification := by
  by_cases hmany : MultiKeychain.quorum S keybox.nodeCount ≤ justification.signature.present.length
  · rw [verify, MultiKeychain.enough _ _ _ hmany,
      SignatureSet.verifyInOrder_returns (SignatureSet.present_sorted _)]
    constructor
    · intro hreturns hreaches
      obtain ⟨_, ⟨e', he', hout⟩, hgood⟩ := hreaches
      obtain hall | ⟨e, he, hin, hbad⟩ := hreturns
      · exact absurd (hall e' he') (Nat.not_lt.mpr hout)
      · exact hbad (hgood e he hin)
    · intro hnot
      by_contra hpanic
      rw [not_or] at hpanic
      obtain ⟨hout, hgood⟩ := hpanic
      push Not at hout hgood
      exact hnot ⟨hmany, hout, hgood⟩
  · rw [verify, MultiKeychain.too_few _ _ _ (Nat.not_le.mp hmany)]
    exact iff_of_true ⟨false, rfl⟩ (fun h => hmany h.1)

end AlephJustification

namespace JustificationHandler
variable [Codec (SignatureSet S)] {handler : JustificationHandler Hash A}
  {notification : JustificationNotification Hash S} {lastFinalized stopH now : ℕ}
  {accepted : Bool}

/-- What handling a notification can do: nothing, or one call for a height in the window
that carries a complete justification. -/
inductive Handled (handler : JustificationHandler Hash A)
    (notification : JustificationNotification Hash S) (authorities : List A)
    (lastFinalized stopH now : ℕ) : JustificationHandler Hash A → Prop
  | unchanged : Handled handler notification authorities lastFinalized stopH now handler
  | finalized {client} (complete : Complete authorities notification.hash notification.justification)
      (above : lastFinalized < notification.number) (below : notification.number ≤ stopH)
      (finalizes : handler.client.finalizeBlock notification.hash true = some client) :
      Handled handler notification authorities lastFinalized stopH now { handler with
        client := client
        finalizeCalls := ⟨notification.hash, notification.number,
          (alephEngineId, Codec.encode notification.justification), true⟩ :: handler.finalizeCalls
        lastFinalizationTime := now }
  | failed (complete : Complete authorities notification.hash notification.justification)
      (above : lastFinalized < notification.number) (below : notification.number ≤ stopH) :
      Handled handler notification authorities lastFinalized stopH now { handler with
        finalizeCalls := ⟨notification.hash, notification.number,
          (alephEngineId, Codec.encode notification.justification), false⟩ :: handler.finalizeCalls }

theorem handle_cases {handler' : JustificationHandler Hash A}
    (h : handler.handleJustificationNotification notification keybox lastFinalized stopH now
      accepted = .ok handler') :
    Handled handler notification keybox.authorities lastFinalized stopH now handler' := by
  obtain ⟨valid, hverify, hrest⟩ := bind_eq_ok.mp h
  cases valid with
  | false =>
    cases hrest
    exact .unchanged
  | true =>
    have hcomplete := AlephJustification.verify_eq_true.mp hverify
    simp only [if_true] at hrest
    split at hrest
    · next hwindow =>
      split at hrest
      · next client hfinalizes =>
        cases hrest
        have haccepted : accepted = true := by
          unfold Client.finalizeBlock at hfinalizes
          split at hfinalizes
          · cases hfinalizes
          · by_contra hnot
            simp [hnot] at hfinalizes
        exact .finalized hcomplete hwindow.1 hwindow.2 (haccepted ▸ hfinalizes)
      · cases hrest
        exact .failed hcomplete hwindow.1 hwindow.2
    · cases hrest
      exact .unchanged

omit [MultiKeychain S] [Codec Hash] [Codec (SignatureSet S)] in
/-- The first half of an iteration ends at the top, or waits with the authorities of the
session of the next block. -/
theorem iterate_cases {task : Task Hash A} (h : handler.iterate = .ok task) :
    task = ⟨handler, .top⟩ ∨ ∃ session keybox,
      sessionIdFromBlockNum (handler.client.finalizedNumber + 1)
        handler.chainCadence.sessionPeriod = .ok session ∧
      handler.sessionAuthorities.lookup session = some keybox.authorities ∧
      task = ⟨handler, .waiting keybox handler.client.finalizedNumber
        (lastBlockOfSession session handler.chainCadence.sessionPeriod)⟩ := by
  obtain ⟨session, hsession, hrest⟩ := bind_eq_ok.mp h
  obtain ⟨keybox?, hkeybox, hrest⟩ := bind_eq_ok.mp hrest
  cases keybox? with
  | none =>
    cases hrest
    exact .inl rfl
  | some keybox =>
    cases hrest
    exact .inr ⟨session, keybox, hsession, lookup_of_sessionKeybox hkeybox, rfl⟩

theorem finalizeCalls_subset {task task' : Task Hash A} {event : Event Hash A S}
    (h : Step task event task') :
    task.handler.finalizeCalls ⊆ task'.handler.finalizeCalls := by
  cases h with
  | iterate run =>
    obtain rfl | ⟨_, _, _, _, rfl⟩ := iterate_cases run
    · exact List.Subset.refl _
    · exact List.Subset.refl _
  | notified run =>
    rw [requestJustification_finalizeCalls]
    cases handle_cases run with
    | unchanged => exact List.Subset.refl _
    | finalized => exact List.subset_cons_self _ _
    | failed => exact List.subset_cons_self _ _
  | timedOut => simp
  | _ => exact List.Subset.refl _

theorem handle_returns :
    Returns (handler.handleJustificationNotification notification keybox lastFinalized stopH now
      accepted) ↔ ¬ReachesBeyond keybox.authorities notification.hash notification.justification := by
  rw [← AlephJustification.verify_returns]
  constructor
  · intro hreturns
    obtain ⟨_, h⟩ := hreturns
    obtain ⟨valid, hverify, _⟩ := bind_eq_ok.mp h
    exact ⟨valid, hverify⟩
  · intro hreturns
    obtain ⟨valid, hverify⟩ := hreturns
    simp only [handleJustificationNotification, hverify, ok_bind]
    split
    · split
      · split <;> exact ⟨_, rfl⟩
      · exact ⟨_, rfl⟩
    · exact ⟨_, rfl⟩

theorem Handled.unchanged_of_incomplete {handler' : JustificationHandler Hash A}
    (h : Handled handler notification authorities lastFinalized stopH now handler')
    (hincomplete : ¬Complete authorities notification.hash notification.justification) :
    handler' = handler := by
  cases h with
  | unchanged => rfl
  | finalized complete => exact absurd complete hincomplete
  | failed complete => exact absurd complete hincomplete

theorem Handled.unchanged_of_outside {handler' : JustificationHandler Hash A}
    (h : Handled handler notification authorities lastFinalized stopH now handler')
    (houtside : lastFinalized < notification.number → ¬notification.number ≤ stopH) :
    handler' = handler := by
  cases h with
  | unchanged => rfl
  | finalized _ above below => exact absurd below (houtside above)
  | failed _ above below => exact absurd below (houtside above)

/-- A complete justification of a height in the window finalizes the block, if the client
does. -/
theorem handle_finalizes {client : Client Hash}
    (hcomplete : Complete keybox.authorities notification.hash notification.justification)
    (habove : lastFinalized < notification.number) (hbelow : notification.number ≤ stopH)
    (hfinalizes : handler.client.finalizeBlock notification.hash accepted = some client) :
    handler.handleJustificationNotification notification keybox lastFinalized stopH now accepted =
      .ok { handler with
        client := client
        finalizeCalls := ⟨notification.hash, notification.number,
          (alephEngineId, Codec.encode notification.justification), true⟩ :: handler.finalizeCalls
        lastFinalizationTime := now } := by
  have hverify := AlephJustification.verify_eq_true.mpr hcomplete
  simp only [handleJustificationNotification, hverify, ok_bind, if_true, gt_iff_lt]
  rw [if_pos ⟨habove, hbelow⟩, hfinalizes]

/-- A justification that decodes is handled without a panic, and without any effect if it
is incomplete, exactly if its verification does not reach beyond the authorities. -/
theorem imported_justification_harmless_iff {raw rest : List UInt8} {number : ℕ}
    {session : SessionId} (hdecode : Codec.decode raw = some (justification, rest))
    (hsession : handler.sessionAuthorities.lookup session = some authorities)
    (hsome : authorities ≠ []) :
    (∃ tx keybox, sendJustification .unbounded hash number (alephEngineId, raw) = .ok tx ∧
        tx.messages = [⟨justification, hash, number⟩] ∧
        handler.sessionKeybox session = .ok (some keybox) ∧
        ∃ handler', handler.handleJustificationNotification ⟨justification, hash, number⟩ keybox
            lastFinalized stopH now accepted = .ok handler' ∧
          (¬Complete authorities hash justification → handler' = handler)) ↔
      ¬ReachesBeyond authorities hash justification := by
  obtain ⟨keybox, hkeybox, hauthorities⟩ := sessionKeybox_of_lookup hsession hsome
  have hreturns : Returns (handler.handleJustificationNotification ⟨justification, hash, number⟩
      keybox lastFinalized stopH now accepted) ↔
        ¬ReachesBeyond keybox.authorities hash justification := handle_returns
  rw [hauthorities] at hreturns
  rw [← hreturns]
  constructor
  · intro hharmless
    obtain ⟨_, keybox', _, _, hkeybox', handler', hhandled, _⟩ := hharmless
    rw [hkeybox, Except.ok.injEq, Option.some.injEq] at hkeybox'
    exact ⟨handler', hkeybox' ▸ hhandled⟩
  · intro hreturns
    obtain ⟨handler', hhandled⟩ := hreturns
    refine ⟨_, keybox, sendJustification_decoded hdecode, rfl, hkeybox, handler', hhandled, ?_⟩
    intro hincomplete
    exact (handle_cases hhandled).unchanged_of_incomplete (hauthorities ▸ hincomplete)

section Example
attribute [local instance] nodeIndexCodec

def singleAuthority (period : SessionPeriod) : JustificationHandler ℕ PlainKey where
  sessionAuthorities :=
    let none : FiniteMap SessionId (List PlainKey) := ∅
    let first : FiniteMap SessionId (List PlainKey) := none.insert ⟨0⟩ [⟨7⟩]
    first.insert ⟨1⟩ [⟨7⟩]
  chainCadence := ⟨period, 1000⟩
  client := Client.ofLine 3 0
  lastRequestTime := 0
  lastFinalizationTime := 0
  finalizeCalls := []
  requested := []

theorem singleAuthority_lookup (period : SessionPeriod) {session : SessionId}
    {authorities : List PlainKey}
    (h : (singleAuthority period).sessionAuthorities.lookup session = some authorities) :
    authorities = [⟨7⟩] := by
  simp only [singleAuthority, FiniteMap.lookup_insert] at h
  split_ifs at h
  · exact (Option.some.inj h).symm
  · exact (Option.some.inj h).symm
  · cases h

def overlongJustification : AlephJustification PlainSignature :=
  ⟨[none, some ⟨⟨1⟩, ⟨0, []⟩⟩]⟩

def singleJustification (hash : ℕ) : AlephJustification PlainSignature :=
  ⟨[some ⟨⟨0⟩, ⟨7, Codec.encode hash⟩⟩]⟩

/-- The notification of a block on the line, with its complete justification. -/
def singleNotification (number : ℕ) : JustificationNotification ℕ PlainSignature :=
  ⟨singleJustification (number + 1), number + 1, number⟩

theorem ofLine_number {best finalized number : ℕ} :
    ∀ header, (Client.ofLine best finalized).header (number + 1) = some header →
      header.number = number := by
  intro header h
  simp only [Client.ofLine] at h
  split at h
  · cases h
    rfl
  · cases h

theorem imported_justification_harmless_iff_single :
    ¬ReachesBeyond [(⟨7⟩ : PlainKey)] (2 : ℕ) (singleJustification 2) ∧
      (∃ tx keybox, sendJustification .unbounded (2 : ℕ) 1
          (alephEngineId, Codec.encode (singleJustification 2)) = .ok tx ∧
        tx.messages = [⟨singleJustification 2, 2, 1⟩] ∧
        (singleAuthority ⟨10⟩).sessionKeybox ⟨0⟩ = .ok (some keybox) ∧
        ∃ handler', (singleAuthority ⟨10⟩).handleJustificationNotification ⟨singleJustification 2, 2, 1⟩
            keybox 0 9 5 true = .ok handler' ∧
          (¬Complete [(⟨7⟩ : PlainKey)] (2 : ℕ) (singleJustification 2) → handler' = singleAuthority ⟨10⟩)) := by
  have hinside : ¬ReachesBeyond [(⟨7⟩ : PlainKey)] (2 : ℕ) (singleJustification 2) := by
    intro hreaches
    obtain ⟨_, ⟨e, he, hout⟩, _⟩ := hreaches
    simp [singleJustification, SignatureSet.present] at he
    simp [he] at hout
  have hdecode : Codec.decode (Codec.encode (singleJustification 2)) =
      some (singleJustification 2, ([] : List UInt8)) := by decide
  exact ⟨hinside, (imported_justification_harmless_iff hdecode (by decide) (by decide)).mpr
    hinside⟩

/-- The overlong justification decodes, and handling it panics. -/
theorem overlong_justification_panics :
    Codec.decode (Codec.encode overlongJustification) = some (overlongJustification, []) ∧
      sendJustification .unbounded (2 : ℕ) 1 (alephEngineId, Codec.encode overlongJustification) =
        .ok ⟨[⟨overlongJustification, 2, 1⟩], true⟩ ∧
      ∃ keybox, (singleAuthority ⟨10⟩).sessionKeybox ⟨0⟩ = .ok (some keybox) ∧
        ¬Returns ((singleAuthority ⟨10⟩).handleJustificationNotification ⟨overlongJustification, 2, 1⟩
          keybox 0 9 5 true) := by
  have hdecode : Codec.decode (Codec.encode overlongJustification) =
      some (overlongJustification, ([] : List UInt8)) := by decide
  refine ⟨hdecode, sendJustification_decoded hdecode, ⟨⟨0⟩, ⟨7⟩, [⟨7⟩]⟩, by decide, ?_⟩
  rw [handle_returns, not_not]
  refine ⟨by decide, ⟨(⟨1⟩, ⟨⟨1⟩, ⟨0, []⟩⟩), by decide, by decide⟩, ?_⟩
  intro e he hin
  simp [overlongJustification, SignatureSet.present] at he
  simp [he] at hin

end Example
end JustificationHandler
end AlephNode
