import AlephNode.SweptSessions
import Mathlib.Tactic.Ring

/-!
# What is kept of sessions

If whenever a session is started all earlier sessions but a few are swept, what is kept of
sessions stays bounded; a session that is not swept is kept. Without peers nothing is ever
swept, and what is kept grows with every session.
-/
namespace AlephNode.ConsensusNetwork

section Sweeping
variable {PeerId A S D : Type} [DecidableEq PeerId] [PeerIdBytes PeerId] [SignatureScheme A S]
  [Codec NodeIndex] [Codec S] [Codec D]

section Runs
variable {session : SessionId} {localPeerId : PeerId} {protocol : String}
  {known : Finset PeerId} {index : PeerId → SessionId → NodeIndex} {few : ℕ}
  {event : Event PeerId A S D} {events : List (Event PeerId A S D)}
  {reached reached' : History PeerId A S D × Task PeerId A S D}

/-- The tables of the peers are settled, and few sessions are kept. -/
structure Economical (known : Finset PeerId) (index : PeerId → SessionId → NodeIndex) (few : ℕ)
    (protocol : String) (reached : History PeerId A S D × Task PeerId A S D) : Prop where
  accounted : Accounted protocol reached
  settled : Peers.Settled known index reached.2.network.peers
  started : ∀ session, Kept reached.2 session →
    ∃ keychain, .sessionStarted session keychain ∈ reached.1.map Prod.snd
  few : ∃ kept : Finset SessionId, kept.card ≤ few + 1 ∧
    ∀ session, Kept reached.2 session → session ∈ kept

theorem economical_initial :
    Economical known index few protocol
      ([], (Task.initial localPeerId protocol : Task PeerId A S D)) where
  accounted := accounted_initial
  settled := Peers.settled_new
  started session h := by
    simp [Kept, Task.initial, new, Peers.isAuthenticated, Peers.new] at h
  few := by
    refine ⟨∅, Nat.zero_le _, ?_⟩
    intro session h
    simp [Kept, Task.initial, new, Peers.isAuthenticated, Peers.new] at h

/-- Before a session is started, what is kept is not swept; and nothing else adds to it. -/
theorem Economical.step (h : Economical known index few protocol reached)
    (hstep : Guarded (Recording Step) (Tidy known index few) reached event reached') :
    Economical known index few protocol reached' := by
  obtain ⟨⟨hsteady, htidy⟩, hrecording⟩ := hstep
  obtain ⟨hrecorded, hstep⟩ := hrecording
  have hkept : ∀ session, Kept reached'.2 session → Kept reached.2 session ∨
      ∃ keychain, event = .sessionStarted session keychain :=
    fun session hkept => hkept.before hstep
  refine ⟨h.accounted.step ⟨hrecorded, hstep⟩, ?_, ?_, ?_⟩
  · obtain ⟨peerEvent, hcauses, hpeers⟩ | ⟨_, hpeers⟩ := step_peers hstep
    · rw [hpeers]
      exact h.settled.step (hsteady peerEvent hcauses)
    · rw [hpeers]
      exact h.settled
  · intro session hafter
    rw [hrecorded]
    obtain hbefore | ⟨keychain, rfl⟩ := hkept session hafter
    · obtain ⟨keychain, hstarted⟩ := h.started session hbefore
      exact ⟨keychain, List.mem_cons_of_mem _ hstarted⟩
    · exact ⟨keychain, List.mem_cons_self⟩
  · by_cases hstart : ∃ session keychain, event = .sessionStarted session keychain
    · obtain ⟨new, keychain, rfl⟩ := hstart
      obtain ⟨unswept, hfew, hswept⟩ := htidy new keychain rfl
      rw [h.accounted.protocol_eq] at hswept
      refine ⟨insert new unswept, (Finset.card_insert_le _ _).trans (Nat.add_le_add_right hfew 1), ?_⟩
      intro session hafter
      rw [Finset.mem_insert]
      obtain hbefore | ⟨_, hevent⟩ := hkept session hafter
      · right
        by_contra hnot
        obtain ⟨_, hstarted⟩ := h.started session hbefore
        exact (hswept session _ hstarted hnot).not_kept h.accounted hbefore
      · cases hevent
        exact .inl rfl
    · obtain ⟨kept, hcard, hin⟩ := h.few
      refine ⟨kept, hcard, ?_⟩
      intro session hafter
      obtain hbefore | ⟨keychain, hevent⟩ := hkept session hafter
      · exact hin session hbefore
      · exact absurd ⟨session, keychain, hevent⟩ hstart

theorem economical_of_run
    (hrun : Run (Guarded (Recording Step) (Tidy known index few))
      ([], Task.initial localPeerId protocol) events reached) :
    Economical known index few protocol reached :=
  hrun.invariant (Economical known index few protocol) economical_initial
    fun _ _ _ h hstep => h.step hstep

/-- Why nothing is kept of a session: a started session is in the map until late data has
come, and who has proved itself is authenticated until its stream closes. -/
structure Lasting (protocol : String) (reached : History PeerId A S D × Task PeerId A S D) :
    Prop where
  protocol_eq : reached.2.network.protocol = protocol
  kept : ∀ session keychain, .sessionStarted session keychain ∈ reached.1.map Prod.snd →
    (∃ sessionData, reached.2.network.sessions.lookup session = some sessionData ∧
      (sessionData.status = .terminated → ∃ later, LateBefore reached.1 session later)) ∨
    ∃ later, LateBefore reached.1 session later ∧ .sessionsRetained ∈ later.map Prod.snd
  authenticated : ∀ peer session later, ProvedBefore reached.1 peer session later →
    reached.2.network.peers.isAuthenticated peer session = true ∨
      .streamClosed peer protocol ∈ later.map Prod.snd

omit [SignatureScheme A S] in
theorem LateBefore.cons {task : Task PeerId A S D} {history later : History PeerId A S D}
    (h : LateBefore history session later)
    (hnew : ∀ keychain, event ≠ .sessionStarted session keychain) :
    LateBefore ((task, event) :: history) session ((task, event) :: later) := by
  obtain ⟨before, peer, raw, hfollowed, hbrings, hlater⟩ := h
  refine ⟨before, peer, raw, followedBy_cons.mpr (.inr ⟨later, rfl, hfollowed⟩), hbrings, ?_⟩
  intro keychain
  rw [List.map_cons, List.mem_cons, not_or]
  exact ⟨Ne.symm (hnew keychain), hlater keychain⟩

private theorem removed_cases {task task' : Task PeerId A S D} {sessionData : SessionData PeerId A S D}
    (hstep : Step task event task')
    (h : task.network.sessions.lookup session = some sessionData)
    (h' : task'.network.sessions.lookup session = none) :
    event = .sessionsRetained ∧ sessionData.status = .terminated := by
  have hchanges := session_changes hstep session
  rw [h, h'] at hchanges
  cases hchanges with
  | removed retains terminated => exact ⟨retains, terminated⟩

theorem lasting_initial :
    Lasting protocol ([], (Task.initial localPeerId protocol : Task PeerId A S D)) where
  protocol_eq := rfl
  kept _ _ h := by cases h
  authenticated _ _ _ h := by simp [ProvedBefore, FollowedBy] at h

private theorem kept_step {history : History PeerId A S D} {task task' : Task PeerId A S D}
    (hstep : Step task event task')
    (h : (∃ sessionData, task.network.sessions.lookup session = some sessionData ∧
        (sessionData.status = .terminated → ∃ later, LateBefore history session later)) ∨
      ∃ later, LateBefore history session later ∧ .sessionsRetained ∈ later.map Prod.snd)
    (hnew : ∀ keychain, event ≠ .sessionStarted session keychain) :
    (∃ sessionData, task'.network.sessions.lookup session = some sessionData ∧
        (sessionData.status = .terminated →
          ∃ later, LateBefore ((task, event) :: history) session later)) ∨
      ∃ later, LateBefore ((task, event) :: history) session later ∧
        .sessionsRetained ∈ later.map Prod.snd := by
  obtain ⟨sessionData, hlookup, hlate⟩ | ⟨later, hlate, hretained⟩ := h
  · cases hlookup' : task'.network.sessions.lookup session with
    | none =>
      obtain ⟨rfl, hterminated⟩ := removed_cases hstep hlookup hlookup'
      obtain ⟨later, hlate⟩ := hlate hterminated
      exact .inr ⟨_, hlate.cons hnew, List.mem_cons_self⟩
    | some sessionData' =>
      left
      refine ⟨sessionData', rfl, ?_⟩
      intro hterminated
      obtain ⟨keychain, hevent, _⟩ | ⟨_, hbefore, hsame | ⟨_, peer, raw, rfl, hbrings⟩⟩ :=
        status_cases hstep hlookup'
      · exact absurd hevent (hnew keychain)
      · cases hlookup.symm.trans hbefore
        obtain ⟨later, hlate⟩ := hlate (hsame.symm.trans hterminated)
        exact ⟨_, hlate.cons hnew⟩
      · exact ⟨[], task, peer, raw, followedBy_cons.mpr (.inl ⟨rfl, rfl⟩), hbrings, by simp⟩
  · exact .inr ⟨_, hlate.cons hnew, List.mem_cons_of_mem _ hretained⟩

private theorem authenticated_step {task task' : Task PeerId A S D} {peer : PeerId}
    (hstep : Step task event task')
    (hsteady : ∀ peerEvent, Causes task.network event peerEvent →
      Peers.Steady known index task.network.peers peerEvent)
    (h : task.network.peers.isAuthenticated peer session = true) :
    task'.network.peers.isAuthenticated peer session = true ∨
      event = .streamClosed peer task.network.protocol := by
  obtain ⟨peerEvent, hcauses, hpeers⟩ | ⟨_, hpeers⟩ := step_peers hstep
  · rw [hpeers]
    cases hcauses with
    | @connected remote =>
      have hfree := (hsteady _ .connected).2 session
      left
      rw [Peers.isAuthenticated_eq, Peers.handle, Peers.nodeOf_insert, if_neg]
      · rw [← Peers.isAuthenticated_eq]
        exact h
      · rintro rfl
        rw [h] at hfree
        cases hfree
    | @disconnected remote =>
      by_cases hremote : peer = remote
      · exact .inr (by rw [hremote])
      · left
        rw [Peers.isAuthenticated_eq, Peers.handle, Peers.nodeOf_remove, if_neg hremote,
          ← Peers.isAuthenticated_eq]
        exact h
    | authenticated =>
      left
      rw [Peers.isAuthenticated_eq, Peers.handle, Peers.nodeOf_authenticate]
      split
      · rfl
      · rw [← Peers.isAuthenticated_eq]
        exact h
  · rw [hpeers]
    exact .inl h

theorem Lasting.step (h : Lasting protocol reached)
    (hstep : Guarded (Recording Step) (Tidy known index few) reached event reached') :
    Lasting protocol reached' := by
  obtain ⟨history, task⟩ := reached
  obtain ⟨history', task'⟩ := reached'
  obtain ⟨⟨hsteady, _⟩, rfl, hstep⟩ := hstep
  have hprotocol : task.network.protocol = protocol := h.protocol_eq
  refine ⟨(step_protocol hstep).trans hprotocol, ?_, ?_⟩
  · intro session keychain hstarted
    by_cases hnew : ∃ keychain, event = .sessionStarted session keychain
    · obtain ⟨keychain, rfl⟩ := hnew
      left
      cases hstep
      refine ⟨_, Finmap.lookup_insert _, ?_⟩
      nofun
    · have hnew' : ∀ keychain, event ≠ .sessionStarted session keychain :=
        fun keychain hevent => hnew ⟨keychain, hevent⟩
      cases hstarted with
      | head => exact absurd rfl (hnew' keychain)
      | tail _ hstarted => exact kept_step hstep (h.kept session keychain hstarted) hnew'
  · intro peer session later hproved
    obtain ⟨before, raw, node, hfollowed, hproves⟩ := hproved
    obtain ⟨rfl, hlast⟩ | ⟨later', rfl, hfollowed'⟩ := followedBy_cons.mp hfollowed
    · cases hlast
      left
      obtain ⟨peerEvent, hcauses, hpeers⟩ | ⟨hnone, _⟩ := step_peers hstep
      · cases hcauses.unique (.authenticated hproves)
        rw [hpeers, Peers.isAuthenticated_eq, Peers.handle, Peers.nodeOf_authenticate,
          if_pos ⟨rfl, rfl⟩]
        rfl
      · exact absurd (.authenticated hproves) (hnone _)
    · obtain hauthenticated | hclosed :=
        h.authenticated peer session later' ⟨before, raw, node, hfollowed', hproves⟩
      · obtain hafter | hevent := authenticated_step hstep hsteady hauthenticated
        · exact .inl hafter
        · rw [hevent, hprotocol]
          exact .inr List.mem_cons_self
      · exact .inr (List.mem_cons_of_mem _ hclosed)

theorem kept_of_not_swept
    (hrun : Run (Guarded (Recording Step) (Tidy known index few))
      ([], Task.initial localPeerId protocol) events reached)
    {keychain : KeyBox A} (hstarted : .sessionStarted session keychain ∈ reached.1.map Prod.snd)
    (h : ¬Swept protocol reached.1 session) : Kept reached.2 session := by
  have hlasting : Lasting protocol reached :=
    hrun.invariant (Lasting protocol) lasting_initial fun _ _ _ h hstep => h.step hstep
  by_contra hnot
  apply h
  refine ⟨?_, ?_⟩
  · obtain ⟨sessionData, hlookup, _⟩ | hretired := hlasting.kept session keychain hstarted
    · exact absurd (.inl ((FiniteMap.mem_keys_iff _ _).mpr ⟨sessionData, hlookup⟩)) hnot
    · exact hretired
  · intro peer later hproved
    obtain hauthenticated | hclosed := hlasting.authenticated peer session later hproved
    · exact absurd (.inr ⟨peer, hauthenticated⟩) hnot
    · exact hclosed

omit [PeerIdBytes PeerId] [SignatureScheme A S] [Codec NodeIndex] [Codec S] [Codec D] in
theorem kept_card_le {task : Task PeerId A S D} {kept : Finset SessionId}
    (h : ∀ session ∈ kept, Kept task session) : kept.card ≤ task.network.sessionEntries := by
  let recorded := fun peer =>
    (task.network.peers.allPeers.lookup peer).elim ∅ (·.authentications.keys)
  have hsub : kept ⊆ task.network.sessions.keys ∪
      task.network.peers.allPeers.keys.biUnion recorded := by
    intro session hsession
    rw [Finset.mem_union, Finset.mem_biUnion]
    obtain hmap | ⟨peer, hpeer⟩ := h session hsession
    · exact .inl hmap
    · right
      unfold Peers.isAuthenticated at hpeer
      split at hpeer
      · next info hinfo =>
        refine ⟨peer, (FiniteMap.mem_keys_iff _ _).mpr ⟨info, hinfo⟩, ?_⟩
        simp only [recorded, hinfo, Option.elim_some]
        exact (FiniteMap.mem_keys_iff _ _).mpr (Option.isSome_iff_exists.mp hpeer)
      · cases hpeer
  have hrecords := Finset.card_biUnion_le (s := task.network.peers.allPeers.keys) (t := recorded)
  calc kept.card
      ≤ (task.network.sessions.keys ∪ task.network.peers.allPeers.keys.biUnion recorded).card :=
        Finset.card_le_card hsub
    _ ≤ task.network.sessions.keys.card +
        (task.network.peers.allPeers.keys.biUnion recorded).card := Finset.card_union_le _ _
    _ ≤ task.network.sessionEntries :=
        Nat.add_le_add_left (hrecords.trans (Nat.le_add_right _ _)) _

/-- What is kept of sessions is bounded, however many there are, if whenever a session is
started all earlier ones but a few are swept: late data has come for them and the loop has
come round, and every peer that proved itself for them has closed its stream. Each session
that is not swept adds to what is kept. -/
theorem session_entries_bounded
    (hrun : Run (Guarded (Recording Step) (Tidy known index few))
      ([], Task.initial localPeerId protocol) events reached) :
    reached.2.network.sessionEntries ≤ (few + 1) * (known.card + 2) ∧
      ∀ unswept : Finset SessionId,
        (∀ session ∈ unswept, (∃ keychain,
            .sessionStarted session keychain ∈ reached.1.map Prod.snd) ∧
          ¬Swept protocol reached.1 session) →
        unswept.card ≤ reached.2.network.sessionEntries := by
  have heconomical := economical_of_run hrun
  obtain ⟨kept, hcard, hkept⟩ := heconomical.few
  have hmap : reached.2.network.sessions.keys.card ≤ kept.card :=
    Finset.card_le_card fun session hsession => hkept session (.inl hsession)
  have htables := heconomical.settled.sessionEntries_le kept
    fun peer session hpeer => hkept session (.inr ⟨peer, hpeer⟩)
  refine ⟨?_, ?_⟩
  · calc reached.2.network.sessionEntries
        ≤ kept.card + (known.card * kept.card + kept.card) := Nat.add_le_add hmap htables
      _ = kept.card * (known.card + 2) := by ring
      _ ≤ (few + 1) * (known.card + 2) := Nat.mul_le_mul_right _ hcard
  · intro unswept hunswept
    apply kept_card_le
    intro session hsession
    obtain ⟨⟨keychain, hstarted⟩, hnot⟩ := hunswept session hsession
    exact kept_of_not_swept hrun hstarted hnot

end Runs
end Sweeping

section Examples
attribute [local instance] nodeIndexCodec

private abbrev PlainTask := Task PlainPeer PlainKey PlainSignature ℕ
private abbrev PlainHistory := History PlainPeer PlainKey PlainSignature ℕ

private def soleKey : KeyBox PlainKey := ⟨⟨0⟩, ⟨7⟩, [⟨7⟩]⟩

private def lateData : List UInt8 :=
  Codec.encode (.ofData ⟨0⟩ 5 : InternalMessage PlainPeer PlainSignature ℕ)

private def soleTask (net : ConsensusNetwork PlainPeer PlainKey PlainSignature ℕ)
    (loop : Loop PlainPeer) : PlainTask :=
  ⟨net, loop, singleSession.starting, []⟩

private def soleProved : ConsensusNetwork PlainPeer PlainKey PlainSignature ℕ :=
  { singleSession.network with
    peers := singleSession.network.peers.authenticate ⟨1⟩ ⟨0⟩ ⟨0⟩ }

private def soleDropped : ConsensusNetwork PlainPeer PlainKey PlainSignature ℕ :=
  { soleProved with sessions := soleProved.sessions.modify ⟨0⟩ (fun sessionData =>
    { sessionData with dataForUser := sessionData.dataForUser.dropReceiver }) }

private def soleTerminated : ConsensusNetwork PlainPeer PlainKey PlainSignature ℕ :=
  soleDropped.onIncomingData ⟨0⟩ 5

private def sweptHistory : PlainHistory :=
  [(soleTask soleTerminated.retainSessions .select, .streamClosed ⟨1⟩ "p"),
    (soleTask soleTerminated .retaining, .sessionsRetained),
    (soleTask soleTerminated (.receiving ⟨1⟩ []), .messagesDone),
    (soleTask soleDropped (.receiving ⟨1⟩ [("p", lateData)]), .message ⟨1⟩ "p" lateData),
    (soleTask soleProved (.receiving ⟨1⟩ [("p", lateData)]), .dataNetworkDropped ⟨0⟩),
    (soleTask singleSession.network
      (.receiving ⟨1⟩ [("p", plainAuthentication ⟨1⟩ ⟨0⟩), ("p", lateData)]),
      .message ⟨1⟩ "p" (plainAuthentication ⟨1⟩ ⟨0⟩)),
    (soleTask singleSession.network .select,
      .notificationsReceived ⟨1⟩ [("p", plainAuthentication ⟨1⟩ ⟨0⟩), ("p", lateData)]),
    (Task.initial ⟨9⟩ "p", .sessionStarted ⟨0⟩ soleKey)]

private theorem decode_lateData : Codec.decode lateData =
    some ((.ofData ⟨0⟩ 5 : InternalMessage PlainPeer PlainSignature ℕ), []) := by decide

private theorem sweptHistory_swept : Swept "p" sweptHistory ⟨0⟩ := by
  refine ⟨⟨sweptHistory.take 3, ⟨_, ⟨1⟩, lateData, ⟨_, rfl⟩, ?_, ?_⟩, ?_⟩, ?_⟩
  · exact ⟨5, [], _, decode_lateData, by decide, rfl, rfl⟩
  · simp [sweptHistory]
  · simp [sweptHistory]
  · rintro peer later ⟨before, raw, node, hfollowed, _⟩
    have hmem := hfollowed.subset (List.mem_append_right later (List.mem_singleton_self _))
    have hpeer : peer = ⟨1⟩ := by
      simp only [sweptHistory, List.mem_cons, Prod.mk.injEq, Event.message.injEq, reduceCtorEq,
        and_false, false_or, List.not_mem_nil, or_false] at hmem
      obtain ⟨_, hpeer, _⟩ | ⟨_, hpeer, _⟩ := hmem <;> exact hpeer
    obtain ⟨_, hlast⟩ | ⟨later', rfl, _⟩ := followedBy_cons.mp hfollowed
    · cases hlast
    · rw [hpeer]
      exact List.mem_cons_self

private theorem sweptHistory_run : ∃ events,
    Run (Guarded (Recording Step) (Tidy {⟨1⟩} (fun _ _ => ⟨0⟩) 0)) ([], Task.initial ⟨9⟩ "p") events
      (sweptHistory, soleTask (soleTerminated.retainSessions.onPeerDisconnected ⟨1⟩) .retaining) := by
  have hproof : Codec.decode (plainAuthentication ⟨1⟩ ⟨0⟩) =
      some ((.ofMeta (plainMeta ⟨1⟩ ⟨0⟩) : InternalMessage PlainPeer PlainSignature ℕ), []) := by
    decide
  have hproves : ∀ (before : ConsensusNetwork PlainPeer PlainKey PlainSignature ℕ) session node,
      Proves before (plainAuthentication ⟨1⟩ ⟨0⟩) ⟨1⟩ session node → node = ⟨0⟩ := by
    rintro before session node ⟨_, _, _, _, hdecode, _⟩
    rw [hproof] at hdecode
    cases hdecode
    rfl
  have hnothing : ∀ (before : ConsensusNetwork PlainPeer PlainKey PlainSignature ℕ) peer session
      node, ¬Proves before lateData peer session node := by
    rintro before peer session node ⟨_, _, _, _, hdecode, _⟩
    rw [decode_lateData] at hdecode
    cases hdecode
  have hstart : Step (Task.initial ⟨9⟩ "p") (.sessionStarted ⟨0⟩ soleKey)
      (soleTask singleSession.network .select) := .sessionStarted _ ⟨⟨0⟩, [⟨7⟩], rfl⟩
  have hnotify : Step (soleTask singleSession.network .select)
      (.notificationsReceived ⟨1⟩ [("p", plainAuthentication ⟨1⟩ ⟨0⟩), ("p", lateData)])
      (soleTask singleSession.network
        (.receiving ⟨1⟩ [("p", plainAuthentication ⟨1⟩ ⟨0⟩), ("p", lateData)])) :=
    .notificationsReceived _ _
  have hprove : Step (soleTask singleSession.network
        (.receiving ⟨1⟩ [("p", plainAuthentication ⟨1⟩ ⟨0⟩), ("p", lateData)]))
      (.message ⟨1⟩ "p" (plainAuthentication ⟨1⟩ ⟨0⟩))
      (soleTask soleProved (.receiving ⟨1⟩ [("p", lateData)])) := .message (by rfl)
  have hdrop : Step (soleTask soleProved (.receiving ⟨1⟩ [("p", lateData)]))
      (.dataNetworkDropped ⟨0⟩) (soleTask soleDropped (.receiving ⟨1⟩ [("p", lateData)])) :=
    .dataNetworkDropped _
  have hlate : Step (soleTask soleDropped (.receiving ⟨1⟩ [("p", lateData)]))
      (.message ⟨1⟩ "p" lateData) (soleTask soleTerminated (.receiving ⟨1⟩ [])) :=
    .message (by rfl)
  have hdone : Step (soleTask soleTerminated (.receiving ⟨1⟩ [])) .messagesDone
      (soleTask soleTerminated .retaining) := .messagesDone
  have hretain : Step (soleTask soleTerminated .retaining) .sessionsRetained
      (soleTask soleTerminated.retainSessions .select) := .sessionsRetained
  have hclose : Step (soleTask soleTerminated.retainSessions .select) (.streamClosed ⟨1⟩ "p")
      (soleTask (soleTerminated.retainSessions.onPeerDisconnected ⟨1⟩) .retaining) :=
    .streamClosed _
  have hmove : ∀ {history : PlainHistory} {task task' : PlainTask} {event}, Step task event task' →
      Tidy {⟨1⟩} (fun _ _ => ⟨0⟩) 0 (history, task) event → Guarded (Recording Step)
        (Tidy {⟨1⟩} (fun _ _ => ⟨0⟩) 0) (history, task) event ((task, event) :: history, task') :=
    fun step tidy => ⟨tidy, rfl, step⟩
  have hrun : Run (Guarded (Recording Step) (Tidy {⟨1⟩} (fun _ _ => ⟨0⟩) 0))
      (([], Task.initial ⟨9⟩ "p") : PlainHistory × PlainTask) _ _ :=
    .tail .refl (hmove hstart ⟨by rintro _ ⟨⟩, fun _ _ _ => ⟨∅, Nat.le_refl _, nofun⟩⟩)
  have hproved := (hrun.tail (hmove hnotify ⟨by rintro _ ⟨⟩, by nofun⟩)).tail
    (hmove hprove ⟨by
      rintro _ ⟨⟩
      exact ⟨Finset.mem_singleton_self _, hproves _ _ _ ‹_›⟩, by nofun⟩)
  have hretained := (((hproved.tail (hmove hdrop ⟨by rintro _ ⟨⟩, by nofun⟩)).tail
    (hmove hlate ⟨by rintro _ ⟨⟩; exact absurd ‹_› (hnothing _ _ _ _), by nofun⟩)).tail
    (hmove hdone ⟨by rintro _ ⟨⟩, by nofun⟩)).tail
    (hmove hretain ⟨by rintro _ ⟨⟩, by nofun⟩)
  exact ⟨_, hretained.tail (hmove hclose ⟨by rintro _ ⟨⟩; trivial, by nofun⟩)⟩

theorem session_entries_bounded_swept : ∃ reached : PlainHistory × PlainTask,
      .sessionStarted ⟨0⟩ ⟨⟨0⟩, ⟨7⟩, [⟨7⟩]⟩ ∈ reached.1.map Prod.snd ∧
      .sessionStarted ⟨1⟩ ⟨⟨0⟩, ⟨7⟩, [⟨7⟩]⟩ ∈ reached.1.map Prod.snd ∧
      reached.2.network.sessionEntries ≤ (0 + 1) * (({⟨1⟩} : Finset PlainPeer).card + 2) := by
  obtain ⟨events, hrun⟩ := sweptHistory_run
  have hfew : FewUnswept 0 "p" sweptHistory := by
    refine ⟨∅, Nat.le_refl _, ?_⟩
    intro session keychain hstarted _
    have hsession : session = ⟨0⟩ ∧ keychain = soleKey := by simpa [sweptHistory] using hstarted
    rw [hsession.1]
    exact sweptHistory_swept
  have hnext : Step
      (soleTask (soleTerminated.retainSessions.onPeerDisconnected ⟨1⟩) .retaining)
      (.sessionStarted ⟨1⟩ soleKey) _ := .sessionStarted _ ⟨⟨0⟩, [⟨7⟩], rfl⟩
  have htidy : Tidy {⟨1⟩} (fun _ _ => ⟨0⟩) 0 (sweptHistory,
      soleTask (soleTerminated.retainSessions.onPeerDisconnected ⟨1⟩) .retaining)
      (.sessionStarted ⟨1⟩ soleKey) := ⟨by rintro _ ⟨⟩, fun _ _ _ => hfew⟩
  have hrun' := hrun.tail (u := (_, _)) ⟨htidy, rfl, hnext⟩
  refine ⟨_, ?_, ?_, (session_entries_bounded hrun').1⟩
  · exact .tail _ (.tail _ (.tail _ (.tail _ (.tail _ (.tail _ (.tail _ (.tail _ (.head _))))))))
  · exact .head _

/-- The first `k` sessions, one after another, without peers: each of them is started, and
its data network is dropped before the loop comes round. The most recent event is first. -/
def quietSessions : ℕ → List (Event PlainPeer PlainKey PlainSignature ℕ)
  | 0 => []
  | k + 1 => [.sessionsRetained, .dht, .dataNetworkDropped ⟨.ofNat k⟩,
      .sessionStarted ⟨.ofNat k⟩ ⟨⟨0⟩, ⟨7⟩, [⟨7⟩]⟩] ++ quietSessions k

private structure Quiet (k : ℕ) (task : PlainTask) : Prop where
  select : task.loop = .select
  peers : task.network.peers = .new
  status : ∀ session, (task.network.sessions.lookup session).map (·.status) =
    if session.val.toNat < k then some .inProgress else none

private theorem Quiet.next {k : ℕ} {task : PlainTask}
    (hk : k < 2 ^ 32) (h : Quiet k task) : ∃ task', Run Step task
      [.sessionsRetained, .dht, .dataNetworkDropped ⟨.ofNat k⟩,
        .sessionStarted ⟨.ofNat k⟩ ⟨⟨0⟩, ⟨7⟩, [⟨7⟩]⟩] task' ∧ Quiet (k + 1) task' := by
  obtain ⟨net, loop, starting, calls⟩ := task
  obtain ⟨rfl, hpeers, hstatus⟩ := h
  have hstarted : Run Step ⟨net, .select, starting, calls⟩
      [.sessionStarted ⟨.ofNat k⟩ ⟨⟨0⟩, ⟨7⟩, [⟨7⟩]⟩] _ :=
    Run.refl.tail (.sessionStarted _ ⟨⟨0⟩, [⟨7⟩], rfl⟩)
  have hrun := ((hstarted.tail (.dataNetworkDropped ⟨.ofNat k⟩)).tail .dht).tail .sessionsRetained
  refine ⟨_, hrun, rfl, hpeers, ?_⟩
  intro session
  have hid : (UInt32.ofNat k).toNat = k := UInt32.toNat_ofNat_of_lt' hk
  have hsession : session = ⟨.ofNat k⟩ ↔ session.val.toNat = k := by
    constructor
    · rintro rfl
      exact hid
    · intro hval
      obtain ⟨val⟩ := session
      rw [SessionId.mk.injEq, ← UInt32.toNat_inj, hid]
      exact hval
  simp only [retainSessions, FiniteMap.lookup_retain, FiniteMap.lookup_modify, startSession,
    FiniteMap.lookup_insert]
  by_cases hlast : session = ⟨.ofNat k⟩
  · have hval := hsession.mp hlast
    simp [hlast, hid]
  · have hval : session.val.toNat ≠ k := fun hval => hlast (hsession.mpr hval)
    have hbefore := hstatus session
    have hlt : session.val.toNat < k + 1 ↔ session.val.toNat < k := by omega
    rw [if_neg hlast, if_neg hlast]
    simp only [hlt]
    rw [← hbefore]
    dsimp only at hbefore ⊢
    cases hlookup : net.sessions.lookup session with
    | none => rfl
    | some sessionData =>
      rw [hlookup] at hbefore
      split at hbefore
      · simp only [Option.map_some, Option.some.injEq] at hbefore
        simp [hbefore]
      · cases hbefore

private theorem quiet_run (k : ℕ) (hk : k ≤ 2 ^ 32) : ∃ task,
    Run Step (Task.initial ⟨9⟩ "p") (quietSessions k) task ∧ Quiet k task := by
  induction k with
  | zero =>
    refine ⟨_, .refl, rfl, rfl, ?_⟩
    intro session
    simp [Task.initial, new]
  | succ k ih =>
    obtain ⟨task, hrun, hquiet⟩ := ih (by omega)
    obtain ⟨task', hnext, hquiet'⟩ := hquiet.next (by omega)
    exact ⟨task', Run.append_iff.mpr ⟨task, hrun, hnext⟩, hquiet'⟩

private theorem Quiet.sessionEntries {k : ℕ} {task : PlainTask}
    (hk : k ≤ 2 ^ 32) (h : Quiet k task) : k ≤ task.network.sessionEntries := by
  have hsub : (Finset.range k).image (fun i => (⟨.ofNat i⟩ : SessionId)) ⊆
      task.network.sessions.keys := by
    intro session hsession
    obtain ⟨i, hi, rfl⟩ := Finset.mem_image.mp hsession
    have hstatus := h.status ⟨.ofNat i⟩
    have hlt := Finset.mem_range.mp hi
    have hid : (UInt32.ofNat i).toNat = i := UInt32.toNat_ofNat_of_lt' (hlt.trans_le hk)
    rw [hid, if_pos hlt] at hstatus
    obtain ⟨sessionData, hlookup, _⟩ := Option.map_eq_some_iff.mp hstatus
    exact (FiniteMap.mem_keys_iff _ _).mpr ⟨sessionData, hlookup⟩
  have hinj : Set.InjOn (fun i => (⟨.ofNat i⟩ : SessionId)) (Finset.range k : Set ℕ) := by
    intro i hi j hj hij
    have hi' := Finset.mem_range.mp hi
    have hj' := Finset.mem_range.mp hj
    have hval := congrArg (fun s : SessionId => s.val.toNat) hij
    simp only [UInt32.toNat_ofNat_of_lt' (hi'.trans_le hk),
      UInt32.toNat_ofNat_of_lt' (hj'.trans_le hk)] at hval
    exact hval
  have hcard := Finset.card_le_card hsub
  rw [Finset.card_image_of_injOn hinj, Finset.card_range] at hcard
  exact hcard.trans (Nat.le_add_right _ _)

/-- Without peers, what is kept of sessions grows with their number: nothing less than the
number of all session ids bounds it. -/
theorem session_entries_unbounded : ¬∃ bound < 2 ^ 32, ∀ k ≤ 2 ^ 32,
    ∀ task, Run Step (Task.initial ⟨9⟩ "p") (quietSessions k) task →
      task.network.sessionEntries ≤ bound := by
  rintro ⟨bound, hbound, h⟩
  obtain ⟨task, hrun, hquiet⟩ := quiet_run (2 ^ 32) (Nat.le_refl _)
  have hle := h (2 ^ 32) (Nat.le_refl _) task hrun
  have hge := hquiet.sessionEntries (Nat.le_refl _)
  omega

end Examples
end AlephNode.ConsensusNetwork
