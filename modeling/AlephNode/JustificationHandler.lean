import AlephNode.ClientState
import AlephNode.FiniteMaps
import AlephNode.KeyBoxes
import AlephNode.LabelledRuns
import AlephNode.SessionArithmetic

/-!
# The justification handler

`JustificationHandler::run` is a loop. An iteration reads the finalized number and the
key box of the session of the next block, and then waits for a notification, for at most
a second. The calls to the client and to the network are recorded. Instants and durations
are in nanoseconds.
-/
namespace AlephNode

/-- `ConsensusEngineId` -/
abbrev EngineId := String

def alephEngineId : EngineId := "FRNK"

structure AlephJustification (S : Type) where
  signature : SignatureSet S
  deriving DecidableEq

structure JustificationNotification (Hash S : Type) where
  justification : AlephJustification S
  hash : Hash
  number : ℕ

structure ChainCadence where
  sessionPeriod : SessionPeriod
  justificationsCadence : ℕ

/-- A call of `finalize_block` and whether it succeeded. -/
structure FinalizeCall (Hash : Type) where
  hash : Hash
  number : ℕ
  justification : EngineId × List UInt8
  succeeded : Bool

/-- The handler with its client. The most recent calls come first. -/
structure JustificationHandler (Hash A : Type) where
  sessionAuthorities : FiniteMap SessionId (List A)
  chainCadence : ChainCadence
  client : Client Hash
  lastRequestTime : ℕ
  lastFinalizationTime : ℕ
  finalizeCalls : List (FinalizeCall Hash)
  requested : List (Hash × ℕ)

instance {S : Type} [Codec (SignatureSet S)] : Codec (AlephJustification S) where
  encode j := Codec.encode j.signature
  decode bytes := (Codec.decode bytes).map (fun (set, rest) => (⟨set⟩, rest))

section Import
variable {Hash S : Type} [Codec (SignatureSet S)]

inductive SendJustificationError where
  | send
  | consensus (message : String)
  | decode
  deriving DecidableEq, Repr

/-- `AlephBlockImport::send_justification`. Bytes after the justification are ignored. -/
def sendJustification (justificationTx : Channel (JustificationNotification Hash S))
    (hash : Hash) (number : ℕ) (justification : EngineId × List UInt8) :
    Except SendJustificationError (Channel (JustificationNotification Hash S)) :=
  if justification.1 ≠ alephEngineId then
    .error (.consensus "Aleph can import only Aleph justifications.")
  else
    match (Codec.decode justification.2 : Option (AlephJustification S × List UInt8)) with
    | none => .error .decode
    | some (alephJustification, _) =>
      (justificationTx.unboundedSend ⟨alephJustification, hash, number⟩).mapError (fun _ => .send)

/-- An imported justification is passed on as it was decoded. -/
theorem sendJustification_decoded {hash : Hash} {justification : AlephJustification S}
    {raw rest : List UInt8} {number : ℕ}
    (hdecode : Codec.decode raw = some (justification, rest)) :
    sendJustification .unbounded hash number (alephEngineId, raw) =
      .ok ⟨[⟨justification, hash, number⟩], true⟩ := by
  simp [sendJustification, hdecode, Channel.unbounded, Except.mapError]

end Import

variable {Hash A S : Type} [SignatureScheme A S] [MultiKeychain S] [Codec Hash]

def AlephJustification.verify (alephJustification : AlephJustification S) (blockHash : Hash)
    (multiKeychain : KeyBox A) : Result Bool :=
  MultiKeychain.isComplete multiKeychain.nodeCount
    (multiKeychain.verify (Codec.encode blockHash)) alephJustification.signature

namespace JustificationHandler
variable [Codec (SignatureSet S)]

/-- `accepted` is the answer of `apply_finality` for a block that the client knows. -/
def handleJustificationNotification (handler : JustificationHandler Hash A)
    (notification : JustificationNotification Hash S) (keybox : KeyBox A)
    (lastFinalized stopH : ℕ) (now : ℕ) (accepted : Bool) :
    Result (JustificationHandler Hash A) := do
  let num := notification.number
  let blockHash := notification.hash
  if ← notification.justification.verify notification.hash keybox then
    if num > lastFinalized ∧ num ≤ stopH then
      let justification := (alephEngineId, Codec.encode notification.justification)
      match handler.client.finalizeBlock blockHash accepted with
      | some client =>
        .ok { handler with
          client := client
          finalizeCalls := ⟨blockHash, num, justification, true⟩ :: handler.finalizeCalls
          lastFinalizationTime := now }
      | none =>
        .ok { handler with
          finalizeCalls := ⟨blockHash, num, justification, false⟩ :: handler.finalizeCalls }
    else .ok handler
  else .ok handler

/-- `headerAt` is the client's answer for the block with the number. -/
def requestJustification (handler : JustificationHandler Hash A) (currentTime : ℕ)
    (headerAt : Option (Header Hash)) : JustificationHandler Hash A :=
  let justificationsCadence := handler.chainCadence.justificationsCadence
  if currentTime - handler.lastFinalizationTime > justificationsCadence ∧
      currentTime - handler.lastRequestTime > 2 * justificationsCadence then
    match headerAt with
    | some header =>
      { handler with
        lastRequestTime := currentTime
        requested := (header.hash, header.number) :: handler.requested }
    | none => handler
  else handler

section RequestJustification
variable (handler : JustificationHandler Hash A) (currentTime : ℕ) (headerAt : Option (Header Hash))

omit [Codec Hash]

/-- A request changes the time of the last request and the record of requests only. -/
theorem requestJustification_frame : ∃ lastRequestTime requested,
    handler.requestJustification currentTime headerAt =
      { handler with lastRequestTime := lastRequestTime, requested := requested } := by
  cases headerAt with
  | none => exact ⟨_, _, ite_self _⟩
  | some header =>
    simp only [requestJustification]
    split
    · exact ⟨_, _, rfl⟩
    · exact ⟨_, _, rfl⟩

@[simp] theorem requestJustification_client :
    (handler.requestJustification currentTime headerAt).client = handler.client := by
  obtain ⟨_, _, h⟩ := requestJustification_frame handler currentTime headerAt
  rw [h]

@[simp] theorem requestJustification_finalizeCalls :
    (handler.requestJustification currentTime headerAt).finalizeCalls = handler.finalizeCalls := by
  obtain ⟨_, _, h⟩ := requestJustification_frame handler currentTime headerAt
  rw [h]

@[simp] theorem requestJustification_chainCadence :
    (handler.requestJustification currentTime headerAt).chainCadence = handler.chainCadence := by
  obtain ⟨_, _, h⟩ := requestJustification_frame handler currentTime headerAt
  rw [h]

@[simp] theorem requestJustification_sessionAuthorities :
    (handler.requestJustification currentTime headerAt).sessionAuthorities =
      handler.sessionAuthorities := by
  obtain ⟨_, _, h⟩ := requestJustification_frame handler currentTime headerAt
  rw [h]

end RequestJustification

/-- The key box has the fake index 0; it is never used for signing. -/
def sessionKeybox (handler : JustificationHandler Hash A) (sessionId : SessionId) :
    Result (Option (KeyBox A)) :=
  match handler.sessionAuthorities.lookup sessionId with
  | none => .ok none
  | some authorities => (KeyBox.new ⟨0⟩ authorities).map some

omit [Codec Hash] in
theorem sessionKeybox_of_lookup {handler : JustificationHandler Hash A}
    {session : SessionId} {authorities : List A}
    (hsession : handler.sessionAuthorities.lookup session = some authorities)
    (hsome : authorities ≠ []) :
    ∃ keybox, handler.sessionKeybox session = .ok (some keybox) ∧
      keybox.authorities = authorities := by
  obtain ⟨authority, others, rfl⟩ := List.exists_cons_of_ne_nil hsome
  exact ⟨⟨⟨0⟩, authority, authority :: others⟩,
    by simp [sessionKeybox, hsession, KeyBox.new, Except.map], rfl⟩

omit [Codec Hash] in
theorem lookup_of_sessionKeybox {handler : JustificationHandler Hash A} {session : SessionId}
    {keybox : KeyBox A} (h : handler.sessionKeybox session = .ok (some keybox)) :
    handler.sessionAuthorities.lookup session = some keybox.authorities := by
  unfold sessionKeybox at h
  split at h
  · cases h
  · next authorities hlookup =>
    rw [hlookup]
    unfold KeyBox.new at h
    split at h <;> cases h
    rfl

/-- Where `run` is: at the top of the loop, waiting for a notification, or at its end. -/
inductive Loop (A : Type) where
  | top
  | waiting (keybox : KeyBox A) (lastFinalized stopH : ℕ)
  | ended

structure Task (Hash A : Type) where
  handler : JustificationHandler Hash A
  loop : Loop A

/-- What happens to the task: its own moves, and the changes that others make to the
session map and to the client in between. -/
inductive Event (Hash A S : Type) where
  | iterate
  | notified (notification : JustificationNotification Hash S) (now : ℕ) (accepted : Bool)
      (currentTime : ℕ) (headerAt : Option (Header Hash))
  | timedOut (currentTime : ℕ) (headerAt : Option (Header Hash))
  | streamEnded
  | sessionAuthoritiesChanged (sessionAuthorities : FiniteMap SessionId (List A))
  | headersImported (headers : HeaderStore Hash) (bestNumber : ℕ)

/-- The first half of an iteration. Without a key box it is repeated later. -/
def iterate (handler : JustificationHandler Hash A) : Result (Task Hash A) := do
  let lastFinalizedNumber := handler.client.finalizedNumber
  let sessionPeriod := handler.chainCadence.sessionPeriod
  let currentSession ← sessionIdFromBlockNum (lastFinalizedNumber + 1) sessionPeriod
  let stopH := lastBlockOfSession currentSession sessionPeriod
  match ← handler.sessionKeybox currentSession with
  | none => .ok ⟨handler, .top⟩
  | some keybox => .ok ⟨handler, .waiting keybox lastFinalizedNumber stopH⟩

inductive Step : Task Hash A → Event Hash A S → Task Hash A → Prop
  | iterate {handler task} (run : handler.iterate = .ok task) : Step ⟨handler, .top⟩ .iterate task
  | notified {handler handler' : JustificationHandler Hash A} {keybox lastFinalized stopH}
      {notification : JustificationNotification Hash S} {now accepted currentTime headerAt}
      (run : handler.handleJustificationNotification notification keybox lastFinalized stopH now
        accepted = .ok handler') :
      Step ⟨handler, .waiting keybox lastFinalized stopH⟩
        (.notified notification now accepted currentTime headerAt)
        ⟨handler'.requestJustification currentTime headerAt, .top⟩
  | timedOut {handler keybox lastFinalized stopH currentTime headerAt} :
      Step ⟨handler, .waiting keybox lastFinalized stopH⟩ (.timedOut currentTime headerAt)
        ⟨handler.requestJustification currentTime headerAt, .top⟩
  | streamEnded {handler keybox lastFinalized stopH} :
      Step ⟨handler, .waiting keybox lastFinalized stopH⟩ .streamEnded ⟨handler, .ended⟩
  | sessionAuthoritiesChanged {handler loop} (sessionAuthorities) :
      Step ⟨handler, loop⟩ (.sessionAuthoritiesChanged sessionAuthorities)
        ⟨{ handler with sessionAuthorities := sessionAuthorities }, loop⟩
  | headersImported {handler loop headers bestNumber}
      (grows : handler.client.toHeaderStore.Subset headers) :
      Step ⟨handler, loop⟩ (.headersImported headers bestNumber)
        ⟨{ handler with client := { handler.client with
          toHeaderStore := headers, bestNumber := bestNumber } }, loop⟩

end JustificationHandler
end AlephNode
