import AlephNode.ClientState
import AlephNode.FiniteMaps
import AlephNode.KeyBoxes
import AlephNode.LabelledRuns
import AlephNode.SessionArithmetic

/-!
# The consensus party

`ConsensusParty::run` runs one session after another, for ever. A session is left when its
last block is finalized, early if the best chain is already beyond it, and also when the
runtime does not answer. The client moves on in between. The tasks of an authority are
recorded when they are spawned and when they are told to exit.
-/
namespace AlephNode

inductive PartyCall (Hash A : Type) where
  | authorityStarted (sessionId : SessionId) (keybox : KeyBox A) (bestChain : AlephData Hash)
      (lastBlock : ℕ)
  | exitSignal (sessionId : SessionId)

/-- The party with its client, and its calls, oldest first. -/
structure ConsensusParty (Hash A : Type) where
  sessionAuthorities : FiniteMap SessionId (List A)
  sessionPeriod : SessionPeriod
  client : Client Hash
  keystore : List A
  calls : List (PartyCall Hash A)

/-- The answer to `next_session_authorities`: the call itself may fail, and so may the
runtime. -/
inductive AuthoritiesAnswer (A : Type) where
  | failed
  | refused
  | answered (authorities : List A)

namespace ConsensusParty
variable {Hash A : Type} [DecidableEq A]

def getNodeIndex (authorities keystore : List A) : Option NodeIndex :=
  (authorities.findIdx? (fun pkey => decide (pkey ∈ keystore))).map (⟨·⟩)

def pruneSessionData (party : ConsensusParty Hash A) (pruneBelow : SessionId) :
    ConsensusParty Hash A :=
  { party with
    sessionAuthorities := party.sessionAuthorities.retain
      (fun s _ => decide (pruneBelow.val ≤ s.val)) }

/-- Where the party is: in `run`, or at the points of `run_session` between which it waits
or reads the client. -/
inductive Position (A : Type) where
  | started
  | next (currId : UInt32)
  | reading (sessionId : SessionId)
  | early (sessionId : SessionId) (authorities : List A)
  | attempting (sessionId : SessionId) (authorities : List A) (attempt : ℕ)
  | joining (sessionId : SessionId) (authorities : List A)
  | waiting (sessionId : SessionId) (maybeNodeId : Option NodeIndex)
  | left (sessionId : SessionId)
  | panicked (panic : Panic)

structure Task (Hash A : Type) where
  party : ConsensusParty Hash A
  position : Position A

/-- What happens to the task: its own moves with what they read, and the growth of the
client in between. -/
inductive Event (Hash A : Type) where
  | started
  | sessionBegun (sessionId : SessionId)
  | genesisAuthorities (answer : Option (List A))
  | nextSessionAuthorities (block : ℕ) (answer : AuthoritiesAnswer A)
  | bestChecked
  | attempted
  | joined (bestChain : Option (AlephData Hash))
  | polled
  | sessionLeft
  | clientGrown (client : Client Hash)

def start (party : ConsensusParty Hash A) : Task Hash A :=
  match sessionIdFromBlockNum party.client.finalizedNumber party.sessionPeriod with
  | .ok startingSession => ⟨party, .next startingSession.val⟩
  | .error panic => ⟨party, .panicked panic⟩

/-- The authorities of a session are stored before anything else. -/
def knowAuthorities (party : ConsensusParty Hash A) (sessionId : SessionId)
    (authorities : List A) : Task Hash A :=
  ⟨{ party with sessionAuthorities := party.sessionAuthorities.insert sessionId authorities },
    .early sessionId authorities⟩

def readGenesisAuthorities (party : ConsensusParty Hash A) (sessionId : SessionId) :
    Option (List A) → Task Hash A
  | some authorities => party.knowAuthorities sessionId authorities
  | none => ⟨party, .panicked .unwrap⟩

def readNextSessionAuthorities (party : ConsensusParty Hash A) (sessionId : SessionId) :
    AuthoritiesAnswer A → Task Hash A
  | .answered authorities => party.knowAuthorities sessionId authorities
  | .refused => ⟨party, .panicked
      (.expect "authorities must be available at last block of previous session")⟩
  | .failed => ⟨party, .left sessionId⟩

/-- The early skip is attempted only if the best chain is beyond the session. -/
def checkBest (party : ConsensusParty Hash A) (sessionId : SessionId) (authorities : List A) :
    Task Hash A :=
  if party.client.bestNumber ≥ lastBlockOfSession sessionId party.sessionPeriod then
    ⟨party, .attempting sessionId authorities 0⟩
  else ⟨party, .joining sessionId authorities⟩

def attemptSkip (party : ConsensusParty Hash A) (sessionId : SessionId) (authorities : List A)
    (attempt : ℕ) : Task Hash A :=
  if party.client.finalizedNumber ≥ lastBlockOfSession sessionId party.sessionPeriod then
    ⟨party, .left sessionId⟩
  else if attempt + 1 < 10 then ⟨party, .attempting sessionId authorities (attempt + 1)⟩
  else ⟨party, .joining sessionId authorities⟩

/-- An authority starts its tasks, which need the best chain; others only wait. -/
def join (party : ConsensusParty Hash A) (sessionId : SessionId) (authorities : List A)
    (bestChain : Option (AlephData Hash)) : Task Hash A :=
  match getNodeIndex authorities party.keystore with
  | none => ⟨party, .waiting sessionId none⟩
  | some nodeId =>
    match KeyBox.new nodeId authorities, bestChain with
    | .error panic, _ => ⟨party, .panicked panic⟩
    | .ok _, none => ⟨party, .panicked (.expect "No best chain.")⟩
    | .ok keybox, some best =>
      let lastBlock := lastBlockOfSession sessionId party.sessionPeriod
      ⟨{ party with calls := party.calls ++ [.authorityStarted sessionId keybox best lastBlock] },
        .waiting sessionId (some nodeId)⟩

/-- One look at the finalized number while the session runs. -/
def poll (party : ConsensusParty Hash A) (sessionId : SessionId)
    (maybeNodeId : Option NodeIndex) : Task Hash A :=
  if party.client.finalizedNumber ≥ lastBlockOfSession sessionId party.sessionPeriod then
    if maybeNodeId.isSome then
      ⟨{ party with calls := party.calls ++ [.exitSignal sessionId] }, .left sessionId⟩
    else ⟨party, .left sessionId⟩
  else ⟨party, .waiting sessionId maybeNodeId⟩

/-- The rest of an iteration of `run`. The next session number wraps. -/
def leave (party : ConsensusParty Hash A) (sessionId : SessionId) : Task Hash A :=
  let currId := sessionId.val
  if currId ≥ 10 ∧ currId % 10 = 0 then
    ⟨party.pruneSessionData ⟨currId - 10⟩, .next (currId + 1)⟩
  else ⟨party, .next (currId + 1)⟩

inductive Step : Task Hash A → Event Hash A → Task Hash A → Prop
  | started {party : ConsensusParty Hash A} : Step ⟨party, .started⟩ .started party.start
  | sessionBegun {party : ConsensusParty Hash A} {currId} :
      Step ⟨party, .next currId⟩ (.sessionBegun ⟨currId⟩) ⟨party, .reading ⟨currId⟩⟩
  | genesisAuthorities {party : ConsensusParty Hash A} {sessionId answer}
      (genesis : sessionId = ⟨0⟩) :
      Step ⟨party, .reading sessionId⟩ (.genesisAuthorities answer)
        (party.readGenesisAuthorities sessionId answer)
  | nextSessionAuthorities {party : ConsensusParty Hash A} {sessionId block answer}
      (later : sessionId ≠ ⟨0⟩)
      (lastPrev : block = lastBlockOfSession ⟨sessionId.val - 1⟩ party.sessionPeriod) :
      Step ⟨party, .reading sessionId⟩ (.nextSessionAuthorities block answer)
        (party.readNextSessionAuthorities sessionId answer)
  | bestChecked {party : ConsensusParty Hash A} {sessionId authorities} :
      Step ⟨party, .early sessionId authorities⟩ .bestChecked
        (party.checkBest sessionId authorities)
  | attempted {party : ConsensusParty Hash A} {sessionId authorities attempt} :
      Step ⟨party, .attempting sessionId authorities attempt⟩ .attempted
        (party.attemptSkip sessionId authorities attempt)
  | joined {party : ConsensusParty Hash A} {sessionId authorities bestChain} :
      Step ⟨party, .joining sessionId authorities⟩ (.joined bestChain)
        (party.join sessionId authorities bestChain)
  | polled {party : ConsensusParty Hash A} {sessionId maybeNodeId} :
      Step ⟨party, .waiting sessionId maybeNodeId⟩ .polled (party.poll sessionId maybeNodeId)
  | sessionLeft {party : ConsensusParty Hash A} {sessionId} :
      Step ⟨party, .left sessionId⟩ .sessionLeft (party.leave sessionId)
  | clientGrown {party : ConsensusParty Hash A} {position client}
      (grows : party.client.Grows client) :
      Step ⟨party, position⟩ (.clientGrown client) ⟨{ party with client := client }, position⟩

end ConsensusParty
end AlephNode
