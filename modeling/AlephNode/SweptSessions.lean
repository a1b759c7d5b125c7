import AlephNode.SessionEntries

/-!
# Sessions that are swept

A session leaves the map of sessions only when data for it comes after its data network was
dropped, and it leaves the tables of peers only when the peers close their streams. A
session for which both has happened is swept, and nothing is kept of it.
-/
namespace AlephNode.ConsensusNetwork

/-- The events so far, the most recent first, each with the state before it. -/
abbrev History (PeerId A S D : Type) := List (Task PeerId A S D × Event PeerId A S D)

section Sweeping
variable {PeerId A S D : Type} [DecidableEq PeerId] [PeerIdBytes PeerId] [SignatureScheme A S]
  [Codec NodeIndex] [Codec S] [Codec D]

def sessionEntries (net : ConsensusNetwork PeerId A S D) : ℕ :=
  net.sessions.keys.card + net.peers.sessionEntries

/-- The message brings data from an authenticated peer for a session whose data network was
dropped. -/
def BringsLateData (net : ConsensusNetwork PeerId A S D) (peer : PeerId) (raw : List UInt8)
    (session : SessionId) : Prop :=
  ∃ data rest sessionData,
    Codec.decode raw = some ((.ofData session data : InternalMessage PeerId S D), rest) ∧
    net.peers.isAuthenticated peer session = true ∧
    net.sessions.lookup session = some sessionData ∧ sessionData.dataForUser.receiverAlive = false

/-- Late data has come for the session, which has not been started again since. -/
def LateBefore (history : History PeerId A S D) (session : SessionId)
    (later : History PeerId A S D) : Prop :=
  ∃ before peer raw,
    FollowedBy history (before, .message peer before.network.protocol raw) later ∧
    BringsLateData before.network peer raw session ∧
    ∀ keychain, .sessionStarted session keychain ∉ later.map Prod.snd

def ProvedBefore (history : History PeerId A S D) (peer : PeerId) (session : SessionId)
    (later : History PeerId A S D) : Prop :=
  ∃ before raw node,
    FollowedBy history (before, .message peer before.network.protocol raw) later ∧
    Proves before.network raw peer session node

/-- Late data has come for the session, and then the loop has come round; and every peer
that has proved itself for the session has closed its stream since. -/
structure Swept (protocol : String) (history : History PeerId A S D) (session : SessionId) :
    Prop where
  late : ∃ later, LateBefore history session later ∧ .sessionsRetained ∈ later.map Prod.snd
  closed : ∀ peer later, ProvedBefore history peer session later →
    .streamClosed peer protocol ∈ later.map Prod.snd

/-- All sessions that were started but `few` are swept. -/
def FewUnswept (few : ℕ) (protocol : String) (history : History PeerId A S D) : Prop :=
  ∃ unswept : Finset SessionId, unswept.card ≤ few ∧
    ∀ session keychain, .sessionStarted session keychain ∈ history.map Prod.snd →
      session ∉ unswept → Swept protocol history session

/-- The peers are steady, and a session is started only when all earlier ones but `few` are
swept. -/
def Tidy (known : Finset PeerId) (index : PeerId → SessionId → NodeIndex) (few : ℕ)
    (before : History PeerId A S D × Task PeerId A S D) (event : Event PeerId A S D) : Prop :=
  (∀ peerEvent, Causes before.2.network event peerEvent →
    Peers.Steady known index before.2.network.peers peerEvent) ∧
  ∀ session keychain, event = .sessionStarted session keychain →
    FewUnswept few before.2.network.protocol before.1

def Kept (task : Task PeerId A S D) (session : SessionId) : Prop :=
  session ∈ task.network.sessions.keys ∨
    ∃ peer, task.network.peers.isAuthenticated peer session = true

section Steps
variable {task task' : Task PeerId A S D} {event : Event PeerId A S D} {session : SessionId}
  {sessionData' : SessionData PeerId A S D}

/-- A session of the map has just been started, or it was in the map before; and its status
changes by late data only. -/
theorem status_cases (hstep : Step task event task')
    (h : task'.network.sessions.lookup session = some sessionData') :
    (∃ keychain, event = .sessionStarted session keychain ∧ sessionData'.status = .inProgress) ∨
    ∃ sessionData, task.network.sessions.lookup session = some sessionData ∧
      (sessionData'.status = sessionData.status ∨ sessionData'.status = .terminated ∧
        ∃ peer raw, event = .message peer task.network.protocol raw ∧
          BringsLateData task.network peer raw session) := by
  have hchanges := session_changes hstep session
  rw [h] at hchanges
  generalize hbefore : task.network.sessions.lookup session = before at hchanges
  cases hchanges with
  | unchanged => exact .inr ⟨sessionData', rfl, .inl rfl⟩
  | started keychain starts => exact .inl ⟨keychain, starts, rfl⟩
  | @handed sessionData remote raw data rest brings decoded authenticated =>
    right
    cases halive : sessionData.dataForUser.receiverAlive with
    | true =>
      rw [sendToUser_alive halive]
      exact ⟨sessionData, rfl, .inl rfl⟩
    | false =>
      rw [sendToUser_dropped halive]
      exact ⟨sessionData, rfl, .inr ⟨rfl, remote, raw, brings, data, rest, sessionData, decoded,
        authenticated, hbefore, halive⟩⟩
  | @dropped sessionData => exact .inr ⟨sessionData, rfl, .inl rfl⟩

private def Doomed (task : Task PeerId A S D) (session : SessionId) : Prop :=
  ∀ sessionData, task.network.sessions.lookup session = some sessionData →
    sessionData.status = .terminated

private theorem Doomed.step (h : Doomed task session) (hstep : Step task event task')
    (hnew : ∀ keychain, event ≠ .sessionStarted session keychain) : Doomed task' session := by
  intro sessionData' hlookup'
  obtain ⟨keychain, hevent, _⟩ | ⟨sessionData, hlookup, hsame | ⟨hterminated, _⟩⟩ :=
    status_cases hstep hlookup'
  · exact absurd hevent (hnew keychain)
  · exact hsame.trans (h sessionData hlookup)
  · exact hterminated

theorem absent_step (h : task.network.sessions.lookup session = none)
    (hstep : Step task event task') (hnew : ∀ keychain, event ≠ .sessionStarted session keychain) :
    task'.network.sessions.lookup session = none := by
  cases hlookup' : task'.network.sessions.lookup session with
  | none => rfl
  | some sessionData' =>
    obtain ⟨keychain, hevent, _⟩ | ⟨sessionData, hlookup, _⟩ := status_cases hstep hlookup'
    · exact absurd hevent (hnew keychain)
    · rw [h] at hlookup
      cases hlookup

private theorem Doomed.retained (h : Doomed task session)
    (hstep : Step task .sessionsRetained task') :
    task'.network.sessions.lookup session = none := by
  cases hstep
  cases hlookup : (retainSessions _).sessions.lookup session with
  | none => rfl
  | some sessionData =>
    simp only [retainSessions, FiniteMap.lookup_retain, Option.filter_eq_some_iff,
      decide_eq_true_eq] at hlookup
    have hterminated := h sessionData hlookup.1
    rw [hlookup.2] at hterminated
    cases hterminated

private theorem doomed_of_lateData {peer : PeerId} {raw : List UInt8}
    (h : BringsLateData task.network peer raw session)
    (hstep : Step task (.message peer task.network.protocol raw) task') : Doomed task' session := by
  obtain ⟨data, rest, sessionData, hdecode, hauthenticated, hlookup, hdropped⟩ := h
  generalize hprotocol : task.network.protocol = protocol at hstep
  cases hstep with
  | message run =>
    dsimp only at hlookup hauthenticated
    simp only [onIncomingMessage, hdecode, hauthenticated, if_true, Except.ok.injEq] at run
    subst run
    intro sessionData' hlookup'
    dsimp only at hlookup'
    unfold onIncomingData at hlookup'
    rw [hlookup] at hlookup'
    dsimp only at hlookup'
    split at hlookup'
    · simp only [FiniteMap.lookup_insert, if_true, Option.some.injEq] at hlookup'
      subst hlookup'
      rw [sendToUser_dropped hdropped]
    · next hstatus =>
      rw [hlookup] at hlookup'
      cases hlookup'
      cases hterminated : sessionData.status with
      | inProgress => exact absurd hterminated hstatus
      | terminated => rfl
  | otherMessage other => exact absurd hprotocol.symm other

/-- Something is kept of a session only if it was before or the session is just started. -/
theorem Kept.before (h : Kept task' session) (hstep : Step task event task') :
    Kept task session ∨ ∃ keychain, event = .sessionStarted session keychain := by
  obtain hmap | ⟨peer, hpeer⟩ := h
  · obtain ⟨sessionData', hlookup'⟩ := (FiniteMap.mem_keys_iff _ _).mp hmap
    obtain ⟨keychain, hevent, _⟩ | ⟨sessionData, hlookup, _⟩ := status_cases hstep hlookup'
    · exact .inr ⟨keychain, hevent⟩
    · exact .inl (.inl ((FiniteMap.mem_keys_iff _ _).mpr ⟨sessionData, hlookup⟩))
  · rw [Peers.isAuthenticated_eq] at hpeer
    obtain ⟨node, hnode⟩ := Option.isSome_iff_exists.mp hpeer
    left
    obtain ⟨hbefore, _⟩ | ⟨_, _, _, _, sessionData, _, _, hlookup, _⟩ :=
      recorded_cases hstep hnode
    · exact .inr ⟨peer, by rw [Peers.isAuthenticated_eq, hbefore]; rfl⟩
    · exact .inl ((FiniteMap.mem_keys_iff _ _).mpr ⟨sessionData, hlookup⟩)

end Steps

section Runs
variable {session : SessionId} {localPeerId : PeerId} {protocol : String}
  {event : Event PeerId A S D} {reached reached' : History PeerId A S D × Task PeerId A S D}

/-- What the history says of the state: sessions for which late data has come are terminated
and then gone, and who is authenticated has proved it and not closed its stream since. -/
structure Accounted (protocol : String) (reached : History PeerId A S D × Task PeerId A S D) :
    Prop where
  protocol_eq : reached.2.network.protocol = protocol
  doomed : ∀ session later, LateBefore reached.1 session later → Doomed reached.2 session
  absent : ∀ session later, LateBefore reached.1 session later →
    .sessionsRetained ∈ later.map Prod.snd → reached.2.network.sessions.lookup session = none
  proved : ∀ peer session, reached.2.network.peers.isAuthenticated peer session = true →
    ∃ later, ProvedBefore reached.1 peer session later ∧
      .streamClosed peer protocol ∉ later.map Prod.snd

theorem accounted_initial :
    Accounted protocol ([], (Task.initial localPeerId protocol : Task PeerId A S D)) where
  protocol_eq := rfl
  doomed _ _ h := by simp [LateBefore, FollowedBy] at h
  absent _ _ h := by simp [LateBefore, FollowedBy] at h
  proved _ _ h := by simp [Task.initial, new, Peers.isAuthenticated, Peers.new] at h

omit [SignatureScheme A S] in
private theorem LateBefore.cases {task : Task PeerId A S D} {history later : History PeerId A S D}
    (h : LateBefore ((task, event) :: history) session later) :
    (later = [] ∧ ∃ peer raw, event = .message peer task.network.protocol raw ∧
      BringsLateData task.network peer raw session) ∨
    ∃ later', later = (task, event) :: later' ∧ LateBefore history session later' ∧
      ∀ keychain, event ≠ .sessionStarted session keychain := by
  obtain ⟨before, peer, raw, hfollowed, hbrings, hnew⟩ := h
  obtain ⟨hnil, hlast⟩ | ⟨later', rfl, hfollowed'⟩ := followedBy_cons.mp hfollowed
  · cases hlast
    exact .inl ⟨hnil, peer, raw, rfl, hbrings⟩
  · simp only [List.map_cons, List.mem_cons, not_or] at hnew
    exact .inr ⟨later', rfl, ⟨before, peer, raw, hfollowed', hbrings, fun k => (hnew k).2⟩,
      fun k => Ne.symm (hnew k).1⟩

omit [DecidableEq PeerId] in
theorem ProvedBefore.cons {history later : History PeerId A S D} {peer : PeerId}
    (h : ProvedBefore history peer session later) (last : Task PeerId A S D × Event PeerId A S D) :
    ProvedBefore (last :: history) peer session (last :: later) := by
  obtain ⟨before, raw, node, hfollowed, hproves⟩ := h
  exact ⟨before, raw, node, followedBy_cons.mpr (.inr ⟨later, rfl, hfollowed⟩), hproves⟩

theorem Accounted.step (h : Accounted protocol reached)
    (hstep : Recording Step reached event reached') : Accounted protocol reached' := by
  obtain ⟨history, task⟩ := reached
  obtain ⟨history', task'⟩ := reached'
  obtain ⟨rfl, hstep⟩ := hstep
  have hprotocol : task.network.protocol = protocol := h.protocol_eq
  refine ⟨(step_protocol hstep).trans hprotocol, ?_, ?_, ?_⟩
  · intro session later hlate
    obtain ⟨_, peer, raw, rfl, hbrings⟩ | ⟨later', _, hlate', hnew⟩ := hlate.cases
    · exact doomed_of_lateData hbrings hstep
    · exact (h.doomed session later' hlate').step hstep hnew
  · intro session later hlate hretained
    obtain ⟨rfl, _⟩ | ⟨later', rfl, hlate', hnew⟩ := hlate.cases
    · cases hretained
    · cases hretained with
      | head => exact (h.doomed session later' hlate').retained hstep
      | tail _ hretained' => exact absent_step (h.absent session later' hlate' hretained') hstep hnew
  · intro peer session hpeer
    rw [Peers.isAuthenticated_eq] at hpeer
    obtain ⟨node, hnode⟩ := Option.isSome_iff_exists.mp hpeer
    obtain ⟨hbefore, hopen⟩ | ⟨raw, rfl, hproves⟩ := recorded_cases hstep hnode
    · have hpeer' : task.network.peers.isAuthenticated peer session = true := by
        rw [Peers.isAuthenticated_eq, hbefore]
        rfl
      obtain ⟨later, hproved, hclosed⟩ := h.proved peer session hpeer'
      refine ⟨(task, event) :: later, hproved.cons _, ?_⟩
      rw [List.map_cons, List.mem_cons, not_or]
      refine ⟨?_, hclosed⟩
      rintro rfl
      exact hopen ⟨rfl, hprotocol.symm⟩
    · exact ⟨[], ⟨task, raw, node, followedBy_cons.mpr (.inl ⟨rfl, rfl⟩), hproves⟩, by simp⟩

theorem Swept.not_kept (hswept : Swept protocol reached.1 session)
    (h : Accounted protocol reached) : ¬Kept reached.2 session := by
  rintro (hmap | ⟨peer, hpeer⟩)
  · obtain ⟨sessionData, hlookup⟩ := (FiniteMap.mem_keys_iff _ _).mp hmap
    obtain ⟨later, hlate, hretained⟩ := hswept.late
    rw [h.absent session later hlate hretained] at hlookup
    cases hlookup
  · obtain ⟨later, hproved, hclosed⟩ := h.proved peer session hpeer
    exact hclosed (hswept.closed peer later hproved)

end Runs
end Sweeping
end AlephNode.ConsensusNetwork
