import AlephNode.IncomingMessages

/-!
# What a step does to a session

A step starts a session, hands data to its user, drops its data network, or removes it when
it is terminated; otherwise the entry of the session in the map stays as it is.
-/
namespace AlephNode.ConsensusNetwork

section Sessions
variable {PeerId A S D : Type}

theorem sendToUser_alive {sessionData : SessionData PeerId A S D}
    (h : sessionData.dataForUser.receiverAlive = true) (data : D) :
    sendToUser data sessionData = { sessionData with
      dataForUser := ⟨sessionData.dataForUser.messages ++ [data], true⟩ } := by
  simp [sendToUser, Channel.unboundedSend, h]

theorem sendToUser_dropped {sessionData : SessionData PeerId A S D}
    (h : sessionData.dataForUser.receiverAlive = false) (data : D) :
    sendToUser data sessionData = { sessionData with status := .terminated } := by
  simp [sendToUser, Channel.unboundedSend, h]

variable [DecidableEq PeerId] [PeerIdBytes PeerId] [SignatureScheme A S] [Codec NodeIndex]
  [Codec S] [Codec D] {task task' : Task PeerId A S D} {event : Event PeerId A S D}

inductive Changes (task : Task PeerId A S D) (event : Event PeerId A S D) (session : SessionId) :
    Option (SessionData PeerId A S D) → Option (SessionData PeerId A S D) → Prop
  | unchanged {entry} : Changes task event session entry entry
  | started {entry} (keychain) (starts : event = .sessionStarted session keychain) :
      Changes task event session entry (some ⟨.unbounded, .inProgress, keychain,
        ⟨session, task.network.localPeerId, keychain.id⟩,
        keychain.sign (Codec.encode
          (⟨session, task.network.localPeerId, keychain.id⟩ : AuthData PeerId))⟩)
  | handed {sessionData remote raw data rest}
      (brings : event = .message remote task.network.protocol raw)
      (decoded : Codec.decode raw = some ((.ofData session data : InternalMessage PeerId S D), rest))
      (authenticated : task.network.peers.isAuthenticated remote session = true) :
      Changes task event session (some sessionData) (some (sendToUser data sessionData))
  | dropped {sessionData} (drops : event = .dataNetworkDropped session) :
      Changes task event session (some sessionData)
        (some { sessionData with dataForUser := sessionData.dataForUser.dropReceiver })
  | removed {sessionData} (retains : event = .sessionsRetained)
      (terminated : sessionData.status = .terminated) :
      Changes task event session (some sessionData) none

theorem session_changes (hstep : Step task event task') (session : SessionId) :
    Changes task event session (task.network.sessions.lookup session)
      (task'.network.sessions.lookup session) := by
  cases hstep with
  | streamOpened _ _ run =>
    obtain ⟨_, rfl⟩ := onPeerConnected_frame run
    exact .unchanged
  | @message net _ _ _ remote raw _ run =>
    cases received_cases run with
    | @handed session' data rest decoded authenticated =>
      unfold onIncomingData
      split
      · exact .unchanged
      · next sessionData hlookup =>
        split
        · rw [FiniteMap.lookup_insert]
          split
          · next hsame =>
            subst hsame
            dsimp only
            rw [hlookup]
            exact .handed rfl decoded authenticated
          · exact .unchanged
        · exact .unchanged
    | _ => exact .unchanged
  | @sessionsRetained net =>
    simp only [retainSessions, FiniteMap.lookup_retain]
    cases net.sessions.lookup session with
    | none => exact .unchanged
    | some sessionData =>
      rw [Option.filter_some]
      cases hstatus : sessionData.status with
      | inProgress => exact .unchanged
      | terminated => exact .removed rfl hstatus
  | sessionStarted =>
    simp only [startSession, FiniteMap.lookup_insert]
    split
    · next hsame =>
      subst hsame
      exact .started _ rfl
    · exact .unchanged
  | @dataNetworkDropped net _ _ _ session' =>
    simp only [FiniteMap.lookup_modify]
    split
    · next hsame =>
      subst hsame
      cases net.sessions.lookup session with
      | none => exact .unchanged
      | some sessionData => exact .dropped rfl
    · exact .unchanged
  | _ => exact .unchanged

end Sessions
end AlephNode.ConsensusNetwork
