import AlephNode.PanicsAndChannels

/-!
# The Aleph pallet

What the runtime stores about the authorities of the current session and about a change of
validators to come. The session pallet calls it back: it asks for the validators of a later
session, and passes on the keys of the session that begins.
-/
namespace AlephNode

def defaultSessionPeriod : UInt32 := 5

def defaultMillisecsPerBlock : UInt64 := 4000

inductive Origin (AccountId : Type) where
  | root
  | signed (who : AccountId)
  | none
  deriving DecidableEq, Repr

inductive DispatchError where
  | badOrigin
  deriving DecidableEq, Repr

inductive ApiError where
  | decodeKey
  deriving DecidableEq, Repr

def ensureRoot {AccountId : Type} : Origin AccountId → Except DispatchError Unit
  | .root => .ok ()
  | _ => .error .badOrigin

/-- The storage of the pallet, with the events that it has deposited, oldest first. -/
structure AlephPallet (AccountId AuthorityId : Type) where
  validators : Option (List AccountId)
  sessionForValidatorsChange : Option UInt32
  authorities : List AuthorityId
  sessionPeriod : UInt32
  millisecsPerBlock : UInt64
  changeValidatorsEvents : List (List AccountId × UInt32)

structure GenesisConfig (AccountId AuthorityId : Type) where
  authorities : List AuthorityId
  sessionPeriod : UInt32
  millisecsPerBlock : UInt64
  validators : List AccountId

namespace AlephPallet
variable {AccountId AuthorityId : Type}

def empty : AlephPallet AccountId AuthorityId where
  validators := none
  sessionForValidatorsChange := none
  authorities := []
  sessionPeriod := defaultSessionPeriod
  millisecsPerBlock := defaultMillisecsPerBlock
  changeValidatorsEvents := []

/-- The configured authorities are not used; the session pallet passes them on. -/
def build (pallet : AlephPallet AccountId AuthorityId)
    (config : GenesisConfig AccountId AuthorityId) : AlephPallet AccountId AuthorityId :=
  { pallet with
    sessionPeriod := config.sessionPeriod
    millisecsPerBlock := config.millisecsPerBlock
    validators := some config.validators
    sessionForValidatorsChange := some 0 }

def changeValidators (pallet : AlephPallet AccountId AuthorityId) (origin : Origin AccountId)
    (validators : List AccountId) (sessionForValidatorsChange : UInt32) :
    AlephPallet AccountId AuthorityId × Except DispatchError Unit :=
  match ensureRoot origin with
  | .error error => (pallet, .error error)
  | .ok () =>
    ({ pallet with
      validators := some validators
      sessionForValidatorsChange := some sessionForValidatorsChange
      changeValidatorsEvents :=
        pallet.changeValidatorsEvents ++ [(validators, sessionForValidatorsChange)] }, .ok ())

/-- `AlephSessionManager::new_session` -/
def newSession (pallet : AlephPallet AccountId AuthorityId) (session : UInt32) :
    Result (Option (List AccountId) × AlephPallet AccountId AuthorityId) :=
  match pallet.sessionForValidatorsChange with
  | none => .ok (none, pallet)
  | some sessionForValidatorsChange =>
    if sessionForValidatorsChange ≤ session then
      match pallet.validators with
      | none => .error (.expect
          "Validators also should be Some(), when session_for_validators_change is")
      | some validators => .ok (some validators,
          { pallet with validators := none, sessionForValidatorsChange := none })
    else .ok (none, pallet)

def initializeAuthorities (pallet : AlephPallet AccountId AuthorityId)
    (authorities : List AuthorityId) : Result (AlephPallet AccountId AuthorityId) :=
  if authorities.isEmpty then .ok pallet
  else if pallet.authorities.isEmpty then .ok { pallet with authorities := authorities }
  else .error (.assert "Authorities are already initialized!")

def updateAuthorities (pallet : AlephPallet AccountId AuthorityId)
    (authorities : List AuthorityId) : AlephPallet AccountId AuthorityId :=
  { pallet with authorities := authorities }

def onGenesisSession (pallet : AlephPallet AccountId AuthorityId)
    (validators : List (AccountId × AuthorityId)) : Result (AlephPallet AccountId AuthorityId) :=
  pallet.initializeAuthorities (validators.map Prod.snd)

/-- Neither whether the validators changed nor the next ones matter. -/
def onNewSession (pallet : AlephPallet AccountId AuthorityId) (_changed : Bool)
    (validators _queuedValidators : List (AccountId × AuthorityId)) :
    AlephPallet AccountId AuthorityId :=
  pallet.updateAuthorities (validators.map Prod.snd)

variable {pallet pallet' : AlephPallet AccountId AuthorityId}

theorem changeValidators_rejected {origin : Origin AccountId} (hroot : origin ≠ .root)
    (validators : List AccountId) (session : UInt32) :
    pallet.changeValidators origin validators session = (pallet, .error .badOrigin) := by
  cases origin with
  | root => exact absurd rfl hroot
  | signed | none => rfl

/-- A change of validators is all that asking for the next ones touches. -/
theorem newSession_frame {session : UInt32} {answer : Option (List AccountId)}
    (h : pallet.newSession session = .ok (answer, pallet')) :
    ∃ validators sessionForValidatorsChange, pallet' = { pallet with
      validators := validators, sessionForValidatorsChange := sessionForValidatorsChange } := by
  unfold newSession at h
  split at h
  · cases h
    exact ⟨_, _, rfl⟩
  · split at h
    · split at h
      · cases h
      · cases h
        exact ⟨_, _, rfl⟩
    · cases h
      exact ⟨_, _, rfl⟩

end AlephPallet
end AlephNode
