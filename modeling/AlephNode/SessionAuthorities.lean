import AlephNode.AlephPallet
import AlephNode.ConsensusParty

/-!
# The authorities of a session

The party reads the authorities of a session one block early, from the keys that the session
pallet has queued. The runtime passes the same keys to the Aleph pallet when the session
begins. That both agree needs two notions of a session to agree: that of the node, which
divides block numbers, and that of the session pallet, which rotates.
-/
namespace AlephNode

/-- The state of the runtime: of the session pallet, and of the Aleph pallet. -/
structure Runtime (State AccountId AuthorityId : Type) where
  session : State
  aleph : AlephPallet AccountId AuthorityId

/-- The session pallet of the runtime, with sessions of `aleph.sessionPeriod` blocks and
offset 0. Its keys are queued for one session before they are in use. -/
structure SessionPallet (State Keys SessionCall AccountId AuthorityId : Type) where
  queuedKeys : State → List (AccountId × Keys)
  alephKey : Keys → Option AuthorityId
  defaultKey : AuthorityId
  genesisBuild : AlephPallet AccountId AuthorityId → Result (Runtime State AccountId AuthorityId)
  onInitialize : ℕ → Runtime State AccountId AuthorityId →
    Result (Runtime State AccountId AuthorityId)
  dispatch : State → SessionCall → State

/-- The calls that the session pallet makes to the Aleph pallet at genesis. -/
inductive GenesisCallbacks {AccountId AuthorityId : Type} :
    AlephPallet AccountId AuthorityId → AlephPallet AccountId AuthorityId → Prop
  | done {pallet} : GenesisCallbacks pallet pallet
  | newSession {pallet pallet' pallet'' : AlephPallet AccountId AuthorityId} {session answer}
      (run : pallet.newSession session = .ok (answer, pallet'))
      (rest : GenesisCallbacks pallet' pallet'') : GenesisCallbacks pallet pallet''
  | onGenesisSession {pallet pallet' pallet'' : AlephPallet AccountId AuthorityId} {validators}
      (run : pallet.onGenesisSession validators = .ok pallet')
      (rest : GenesisCallbacks pallet' pallet'') : GenesisCallbacks pallet pallet''

theorem GenesisCallbacks.sessionPeriod {AccountId AuthorityId : Type}
    {aleph aleph' : AlephPallet AccountId AuthorityId}
    (h : GenesisCallbacks aleph aleph') : aleph'.sessionPeriod = aleph.sessionPeriod := by
  induction h with
  | done => rfl
  | newSession run _ ih =>
    obtain ⟨_, _, rfl⟩ := AlephPallet.newSession_frame run
    exact ih
  | onGenesisSession run _ ih =>
    rw [ih]
    unfold AlephPallet.onGenesisSession AlephPallet.initializeAuthorities at run
    split at run
    · cases run
      rfl
    · split at run
      · cases run
        rfl
      · cases run

inductive Extrinsic (SessionCall AccountId : Type) where
  | changeValidators (origin : Origin AccountId) (validators : List AccountId) (session : UInt32)
  | session (call : SessionCall)

namespace SessionPallet
variable {State Keys SessionCall AccountId AuthorityId : Type}

/-- The keys of the Aleph pallet among those of the validators; a missing one is replaced. -/
def ourKeys (pallet : SessionPallet State Keys SessionCall AccountId AuthorityId)
    (keys : List (AccountId × Keys)) : List (AccountId × AuthorityId) :=
  keys.map (fun entry => (entry.1, (pallet.alephKey entry.2).getD pallet.defaultKey))

structure Documented (pallet : SessionPallet State Keys SessionCall AccountId AuthorityId) :
    Prop where
  /-- At genesis the Aleph pallet is called back only. -/
  genesis : ∀ aleph runtime, pallet.genesisBuild aleph = .ok runtime →
    GenesisCallbacks aleph runtime.aleph
  /-- A block whose number is a multiple of the period asks for the validators of a later
  session, and passes on the keys that were queued. -/
  rotates : ∀ n runtime runtime', 0 < n → n % runtime.aleph.sessionPeriod.toNat = 0 →
    pallet.onInitialize n runtime = .ok runtime' →
    ∃ session answer aleph changed queued, runtime.aleph.newSession session = .ok (answer, aleph) ∧
      runtime'.aleph =
        aleph.onNewSession changed (pallet.ourKeys (pallet.queuedKeys runtime.session)) queued
  /-- Other blocks begin without a change. -/
  waits : ∀ n runtime runtime', 0 < n → n % runtime.aleph.sessionPeriod.toNat ≠ 0 →
    pallet.onInitialize n runtime = .ok runtime' → runtime'.aleph = runtime.aleph

def KeysPresent (pallet : SessionPallet State Keys SessionCall AccountId AuthorityId)
    (state : State) : Prop :=
  ∀ entry ∈ pallet.queuedKeys state, (pallet.alephKey entry.2).isSome

def nextSessionAuthorities (pallet : SessionPallet State Keys SessionCall AccountId AuthorityId)
    (runtime : Runtime State AccountId AuthorityId) : Except ApiError (List AuthorityId) :=
  (pallet.queuedKeys runtime.session).mapM (fun entry =>
    match pallet.alephKey entry.2 with
    | some key => .ok key
    | none => .error .decodeKey)

def apply (pallet : SessionPallet State Keys SessionCall AccountId AuthorityId)
    (runtime : Runtime State AccountId AuthorityId) :
    Extrinsic SessionCall AccountId → Runtime State AccountId AuthorityId
  | .changeValidators origin validators session =>
    { runtime with aleph := (runtime.aleph.changeValidators origin validators session).1 }
  | .session call => { runtime with session := pallet.dispatch runtime.session call }

def executeBlock (pallet : SessionPallet State Keys SessionCall AccountId AuthorityId) (n : ℕ)
    (extrinsics : List (Extrinsic SessionCall AccountId))
    (runtime : Runtime State AccountId AuthorityId) :
    Result (Runtime State AccountId AuthorityId) := do
  let runtime ← pallet.onInitialize n runtime
  .ok (extrinsics.foldl pallet.apply runtime)

/-- A chain from genesis up to the block `head`, with the state after each block. -/
structure Chain (pallet : SessionPallet State Keys SessionCall AccountId AuthorityId)
    (config : GenesisConfig AccountId AuthorityId) (head : ℕ) where
  extrinsics : ℕ → List (Extrinsic SessionCall AccountId)
  states : ℕ → Runtime State AccountId AuthorityId
  genesis : pallet.genesisBuild (AlephPallet.empty.build config) = .ok (states 0)
  executes : ∀ n < head,
    pallet.executeBlock (n + 1) (extrinsics (n + 1)) (states n) = .ok (states (n + 1))

section Blocks
variable {pallet : SessionPallet State Keys SessionCall AccountId AuthorityId}
  {config : GenesisConfig AccountId AuthorityId} {head n : ℕ}
  {runtime runtime' : Runtime State AccountId AuthorityId}
  {extrinsics : List (Extrinsic SessionCall AccountId)}

/-- Extrinsics change neither the period nor the authorities. -/
theorem apply_frame (pallet : SessionPallet State Keys SessionCall AccountId AuthorityId)
    (runtime : Runtime State AccountId AuthorityId)
    (extrinsics : List (Extrinsic SessionCall AccountId)) :
    (extrinsics.foldl pallet.apply runtime).aleph.sessionPeriod = runtime.aleph.sessionPeriod ∧
    (extrinsics.foldl pallet.apply runtime).aleph.authorities = runtime.aleph.authorities := by
  induction extrinsics generalizing runtime with
  | nil => exact ⟨rfl, rfl⟩
  | cons extrinsic extrinsics ih =>
    rw [List.foldl_cons]
    obtain ⟨hperiod, hauthorities⟩ := ih (pallet.apply runtime extrinsic)
    rw [hperiod, hauthorities]
    cases extrinsic with
    | changeValidators origin validators session => cases origin <;> exact ⟨rfl, rfl⟩
    | session call => exact ⟨rfl, rfl⟩

/-- A block that begins a session puts the queued keys in office. -/
theorem executeBlock_rotates (documented : pallet.Documented) (hn : 0 < n)
    (hmultiple : n % runtime.aleph.sessionPeriod.toNat = 0)
    (h : pallet.executeBlock n extrinsics runtime = .ok runtime') :
    runtime'.aleph.sessionPeriod = runtime.aleph.sessionPeriod ∧
      runtime'.aleph.authorities =
        (pallet.ourKeys (pallet.queuedKeys runtime.session)).map Prod.snd := by
  obtain ⟨begun, hbegun, hrest⟩ := bind_eq_ok.mp h
  cases hrest
  obtain ⟨hperiod, hauthorities⟩ := apply_frame pallet begun extrinsics
  obtain ⟨_, _, _, _, _, hnew, haleph⟩ := documented.rotates n runtime begun hn hmultiple hbegun
  obtain ⟨_, _, rfl⟩ := AlephPallet.newSession_frame hnew
  rw [hperiod, hauthorities, haleph]
  exact ⟨rfl, rfl⟩

/-- A block within a session keeps the authorities and the queued keys. -/
theorem executeBlock_waits (documented : pallet.Documented) (hn : 0 < n)
    (hinside : n % runtime.aleph.sessionPeriod.toNat ≠ 0)
    (h : pallet.executeBlock n extrinsics runtime = .ok runtime') :
    runtime'.aleph.sessionPeriod = runtime.aleph.sessionPeriod ∧
      runtime'.aleph.authorities = runtime.aleph.authorities := by
  obtain ⟨begun, hbegun, hrest⟩ := bind_eq_ok.mp h
  cases hrest
  obtain ⟨hperiod, hauthorities⟩ := apply_frame pallet begun extrinsics
  have haleph := documented.waits n runtime begun hn hinside hbegun
  rw [hperiod, hauthorities, haleph]
  exact ⟨rfl, rfl⟩

theorem nextSessionAuthorities_eq (hkeys : pallet.KeysPresent runtime.session) :
    pallet.nextSessionAuthorities runtime =
      .ok ((pallet.ourKeys (pallet.queuedKeys runtime.session)).map Prod.snd) := by
  unfold KeysPresent at hkeys
  unfold nextSessionAuthorities ourKeys
  generalize pallet.queuedKeys runtime.session = keys at hkeys
  induction keys with
  | nil => rfl
  | cons entry keys ih =>
    obtain ⟨hentry, hrest⟩ := List.forall_mem_cons.mp hkeys
    obtain ⟨key, hkey⟩ := Option.isSome_iff_exists.mp hentry
    rw [List.mapM_cons, ih hrest, hkey]
    simp [hkey]
    rfl

end Blocks

section Chains
variable {pallet : SessionPallet State Keys SessionCall AccountId AuthorityId}
  {config : GenesisConfig AccountId AuthorityId} {head : ℕ} {chain : Chain pallet config head}

theorem Chain.sessionPeriod (documented : pallet.Documented) (chain : Chain pallet config head)
    {n : ℕ} (hn : n ≤ head) : (chain.states n).aleph.sessionPeriod = config.sessionPeriod := by
  induction n with
  | zero => exact (documented.genesis _ _ chain.genesis).sessionPeriod
  | succ n ih =>
    have hexecutes := chain.executes n hn
    rw [← ih (Nat.le_of_succ_le hn)]
    by_cases hmultiple : (n + 1) % (chain.states n).aleph.sessionPeriod.toNat = 0
    · exact (executeBlock_rotates documented (Nat.succ_pos n) hmultiple hexecutes).1
    · exact (executeBlock_waits documented (Nat.succ_pos n) hmultiple hexecutes).1

/-- The first block of a session takes the authorities that the block before announces. -/
theorem Chain.authorities_begin (documented : pallet.Documented)
    (chain : Chain pallet config head) {n : ℕ} (hn : n < head)
    (hkeys : pallet.KeysPresent (chain.states n).session)
    (hmultiple : (n + 1) % config.sessionPeriod.toNat = 0) :
    pallet.nextSessionAuthorities (chain.states n) =
      .ok (chain.states (n + 1)).aleph.authorities := by
  rw [← chain.sessionPeriod documented (Nat.le_of_lt hn)] at hmultiple
  have hrotates :=
    executeBlock_rotates documented (Nat.succ_pos n) hmultiple (chain.executes n hn)
  rw [nextSessionAuthorities_eq hkeys, hrotates.2]

theorem Chain.authorities_within (documented : pallet.Documented)
    (chain : Chain pallet config head) {first k : ℕ}
    (hfirst : first % config.sessionPeriod.toNat = 0) (hk : k < config.sessionPeriod.toNat)
    (hhead : first + k ≤ head) :
    (chain.states (first + k)).aleph.authorities = (chain.states first).aleph.authorities := by
  induction k with
  | zero => rfl
  | succ k ih =>
    have hinside : (first + k + 1) % config.sessionPeriod.toNat ≠ 0 := by
      rw [Nat.add_assoc, Nat.add_mod, hfirst, Nat.zero_add, Nat.mod_mod, Nat.mod_eq_of_lt hk]
      exact Nat.succ_ne_zero k
    rw [← ih (by omega) (by omega)]
    rw [← chain.sessionPeriod documented (Nat.le_of_succ_le hhead)] at hinside
    exact (executeBlock_waits documented (Nat.succ_pos _) hinside (chain.executes _ hhead)).2

/-- The runtime's answer to the party: `refused` is an error of the runtime itself. -/
def authoritiesAnswer (pallet : SessionPallet State Keys SessionCall AccountId AuthorityId)
    (runtime : Runtime State AccountId AuthorityId) : AuthoritiesAnswer AuthorityId :=
  match pallet.nextSessionAuthorities runtime with
  | .ok authorities => .answered authorities
  | .error _ => .refused

/-- The party reads what the runtime answers at a block of the chain. -/
inductive Chain.Answers {Hash : Type} (chain : Chain pallet config head) :
    ConsensusParty.Event Hash AuthorityId → Prop
  | genesis : chain.Answers (.genesisAuthorities (some (chain.states 0).aleph.authorities))
  | next {block} (known : block ≤ head) : chain.Answers
      (.nextSessionAuthorities block (pallet.authoritiesAnswer (chain.states block)))

/-- The authorities that the party stores for a session, and with which it goes on, are those of the
runtime at every block of the session. -/
theorem session_authorities_agree {Hash : Type} [DecidableEq AuthorityId]
    (documented : pallet.Documented)
    (hkeys : ∀ n ≤ head, pallet.KeysPresent (chain.states n).session)
    (hperiod : 0 < config.sessionPeriod.toNat) (hhead : head < 2 ^ 32)
    {party : ConsensusParty Hash AuthorityId}
    (hparty : party.sessionPeriod = ⟨config.sessionPeriod⟩) {s : SessionId}
    {event : ConsensusParty.Event Hash AuthorityId} {task : ConsensusParty.Task Hash AuthorityId}
    (hanswers : chain.Answers event)
    (hstep : ConsensusParty.Step ⟨party, .reading s⟩ event task) {n : ℕ} (hn : n ≤ head)
    (hsession : sessionIdFromBlockNum n ⟨config.sessionPeriod⟩ = .ok s) :
    task.party.sessionAuthorities.lookup s = some (chain.states n).aleph.authorities ∧
      task.position = .early s (chain.states n).aleph.authorities := by
  obtain ⟨_, hdiv⟩ := sessionIdFromBlockNum_ok.mp hsession
  dsimp only at hdiv
  rw [Nat.min_eq_left (by omega)] at hdiv
  -- the session begins at the multiple of the period below `n`
  have hsplit := Nat.div_add_mod' n config.sessionPeriod.toNat
  rw [← hdiv] at hsplit
  have hwithin := chain.authorities_within documented
    (Nat.mul_mod_left s.val.toNat config.sessionPeriod.toNat)
    (Nat.mod_lt n hperiod) (by omega)
  rw [hsplit] at hwithin
  rw [hwithin]
  cases hstep with
  | genesisAuthorities genesis =>
    cases hanswers
    subst genesis
    have hzero : (⟨0⟩ : SessionId).val.toNat * config.sessionPeriod.toNat = 0 := Nat.zero_mul _
    rw [hzero]
    exact ⟨Finmap.lookup_insert _, rfl⟩
  | @nextSessionAuthorities _ _ block answer later lastPrev =>
    cases hanswers with
    | next known =>
      rw [hparty] at lastPrev
      have hlast : lastBlockOfSession ⟨s.val - 1⟩ ⟨config.sessionPeriod⟩ + 1 =
          s.val.toNat * config.sessionPeriod.toNat :=
        lastBlockOfSession_pred later hperiod (by dsimp only; omega)
      rw [← lastPrev] at hlast
      have hbegin := chain.authorities_begin documented (show block < head by omega)
        (hkeys block known) (by rw [hlast]; exact Nat.mul_mod_left _ _)
      rw [hlast] at hbegin
      rw [authoritiesAnswer, hbegin]
      exact ⟨Finmap.lookup_insert _, rfl⟩
  | clientGrown => cases hanswers

end Chains

section Example

/-- A session pallet whose sets of keys are keys of the Aleph pallet. -/
structure PlainSession where
  currentIndex : UInt32
  validators : List ℕ
  nextKeys : List (ℕ × ℕ)
  queuedKeys : List (ℕ × ℕ)
  queuedChanged : Bool

private def loadKeys (keys : List (ℕ × ℕ)) (validators : List ℕ) : List (ℕ × ℕ) :=
  validators.map (fun v => (v, (keys.lookup v).getD 0))

private def plainGenesis (keys : List (ℕ × ℕ)) (aleph : AlephPallet ℕ ℕ) :
    Result (Runtime PlainSession ℕ ℕ) := do
  let (answer, aleph) ← aleph.newSession 0
  let initial := answer.getD (keys.map Prod.fst)
  let (answer, aleph) ← aleph.newSession 1
  let queued := loadKeys keys (answer.getD initial)
  let aleph ← aleph.onGenesisSession queued
  .ok ⟨⟨0, initial, keys, queued, false⟩, aleph⟩

private def plainInitialize (n : ℕ) (runtime : Runtime PlainSession ℕ ℕ) :
    Result (Runtime PlainSession ℕ ℕ) :=
  if n % runtime.aleph.sessionPeriod.toNat = 0 then do
    let session := runtime.session
    let validators := session.queuedKeys.map Prod.fst
    let index := session.currentIndex + 1
    let (answer, aleph) ← runtime.aleph.newSession (index + 1)
    let queued := loadKeys session.nextKeys (answer.getD validators)
    .ok ⟨⟨index, validators, session.nextKeys, queued, answer.isSome⟩,
      aleph.onNewSession session.queuedChanged session.queuedKeys queued⟩
  else .ok runtime

private def plainPallet (keys : List (ℕ × ℕ)) : SessionPallet PlainSession ℕ (ℕ × ℕ) ℕ ℕ where
  queuedKeys session := session.queuedKeys
  alephKey := some
  defaultKey := 0
  genesisBuild := plainGenesis keys
  onInitialize := plainInitialize
  dispatch session entry := { session with nextKeys := entry :: session.nextKeys }

private theorem plainPallet_ourKeys (keys entries : List (ℕ × ℕ)) :
    (plainPallet keys).ourKeys entries = entries := by
  simp [plainPallet, ourKeys]

private theorem plainPallet_documented (keys : List (ℕ × ℕ)) : (plainPallet keys).Documented where
  genesis aleph runtime h := by
    obtain ⟨first, hfirst, h⟩ := bind_eq_ok.mp h
    obtain ⟨second, hsecond, h⟩ := bind_eq_ok.mp h
    obtain ⟨third, hthird, h⟩ := bind_eq_ok.mp h
    cases h
    exact .newSession hfirst (.newSession hsecond (.onGenesisSession hthird .done))
  rotates n runtime runtime' _ hmultiple h := by
    simp only [plainPallet, plainInitialize, if_pos hmultiple] at h
    obtain ⟨asked, hasked, h⟩ := bind_eq_ok.mp h
    cases h
    refine ⟨_, _, _, runtime.session.queuedChanged,
      loadKeys runtime.session.nextKeys (asked.1.getD (runtime.session.queuedKeys.map Prod.fst)),
      hasked, ?_⟩
    rw [plainPallet_ourKeys]
    rfl
  waits n runtime runtime' _ hinside h := by
    simp only [plainPallet, plainInitialize, if_neg hinside, Except.ok.injEq] at h
    rw [h]

private def changedExtrinsics : ℕ → List (Extrinsic (ℕ × ℕ) ℕ)
  | 1 => [.session (3, 33), .changeValidators .root [3] 2]
  | _ => []

private def changedConfig : GenesisConfig ℕ ℕ := ⟨[], 2, 4000, [1, 2]⟩

private def changedPallet : SessionPallet PlainSession ℕ (ℕ × ℕ) ℕ ℕ :=
  plainPallet [(1, 11), (2, 22)]

private def changedStates : ℕ → Runtime PlainSession ℕ ℕ
  | 0 => ((changedPallet.genesisBuild (AlephPallet.empty.build changedConfig)).toOption).getD
      ⟨⟨0, [], [], [], false⟩, AlephPallet.empty⟩
  | n + 1 => ((changedPallet.executeBlock (n + 1) (changedExtrinsics (n + 1))
      (changedStates n)).toOption).getD (changedStates n)

private def changedChain : Chain changedPallet changedConfig 5 where
  extrinsics := changedExtrinsics
  states := changedStates
  genesis := rfl
  executes n hn := by
    match n, hn with
    | 0, _ | 1, _ | 2, _ | 3, _ | 4, _ => rfl

/-- The change is in force in session 2, whose authorities are read at block 3. -/
theorem session_authorities_agree_changed :
    let party : ConsensusParty ℕ ℕ := ⟨∅, ⟨2⟩, Client.ofLine 5 3, [], []⟩
    let task := party.readNextSessionAuthorities ⟨2⟩
      (changedPallet.authoritiesAnswer (changedStates 3))
    task.party.sessionAuthorities.lookup ⟨2⟩ = some [33] ∧ task.position = .early ⟨2⟩ [33] := by
  intro party task
  have hkeys : ∀ n ≤ 5, changedPallet.KeysPresent (changedStates n).session :=
    fun _ _ _ _ => rfl
  have hanswers : Chain.Answers changedChain (.nextSessionAuthorities 3
      (changedPallet.authoritiesAnswer (changedStates 3)) : ConsensusParty.Event ℕ ℕ) :=
    .next (by decide)
  have hstep : ConsensusParty.Step ⟨party, .reading ⟨2⟩⟩ (.nextSessionAuthorities 3
      (changedPallet.authoritiesAnswer (changedStates 3)))
      (party.readNextSessionAuthorities ⟨2⟩
        (changedPallet.authoritiesAnswer (changedStates 3))) :=
    .nextSessionAuthorities (by decide) (by decide)
  have hn : 5 ≤ 5 := Nat.le_refl 5
  exact session_authorities_agree (plainPallet_documented _) hkeys (by decide) (by decide) rfl
    hanswers hstep hn rfl

end Example
end SessionPallet
end AlephNode
