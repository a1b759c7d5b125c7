import AlephNode.BlockMetrics
import AlephNode.JustificationHandler

/-!
# The block import

`AlephBlockImport` wraps the block import of the client. It takes the justifications out of
a block before the client sees it, and passes the one of this consensus on once the client
has imported the block. The wrapped import is awaited, so `import_block` is a first and a
last part around it. What the client does with a block is a parameter.
-/
namespace AlephNode

/-- `sc_consensus::ImportResult` -/
inductive ImportResult (Aux : Type) where
  | imported (aux : Aux)
  | alreadyInChain
  | knownBad
  | unknownParent
  | missingState
  deriving DecidableEq

/-- `sp_consensus::Error`, as far as the import makes one itself. -/
inductive ConsensusError where
  | clientImport (message : String)
  deriving DecidableEq, Repr

/-- `Justifications` -/
abbrev Justifications := List (EngineId × List UInt8)

def Justifications.intoJustification (justifications : Justifications) (engineId : EngineId) :
    Option (List UInt8) :=
  (justifications.find? (fun justification => decide (justification.1 = engineId))).map Prod.snd

/-- `BlockImportParams`. The wrapper passes `rest` on as it is. -/
structure BlockImportParams (Hash Rest : Type) where
  header : Header Hash
  postHash : Hash
  justifications : Option Justifications
  rest : Rest

structure AlephBlockImport (Hash S : Type) where
  justificationTx : Channel (JustificationNotification Hash S)
  metrics : Option (Metrics Hash)

/-- `report_block`, if there are metrics. -/
def reportStage {Hash : Type} [DecidableEq Hash] (metrics : Option (Metrics Hash)) (hash : Hash)
    (checkpoint : ℕ) (checkpointName : String) : Result (Option (Metrics Hash)) :=
  match metrics with
  | none => .ok none
  | some metrics => (metrics.reportBlock hash checkpoint checkpointName).map some

namespace AlephBlockImport
variable {Hash S Rest Aux E : Type} [DecidableEq Hash] [Codec (SignatureSet S)]

/-- `import_block` before the wrapped import: what is left for it, and the justifications that
were taken out. -/
def beginImport (blockImport : AlephBlockImport Hash S) (block : BlockImportParams Hash Rest)
    (now : ℕ) : Result (AlephBlockImport Hash S × BlockImportParams Hash Rest ×
      Option Justifications) := do
  let metrics ← reportStage blockImport.metrics block.postHash now "importing"
  .ok ({ blockImport with metrics := metrics }, { block with justifications := none },
    block.justifications)

/-- A justification that cannot be sent is only logged. -/
def passJustification (justificationTx : Channel (JustificationNotification Hash S)) (hash : Hash)
    (number : ℕ) (justifications : Option Justifications) :
    Channel (JustificationNotification Hash S) :=
  match justifications.bind (·.intoJustification alephEngineId) with
  | none => justificationTx
  | some justification =>
    match sendJustification justificationTx hash number (alephEngineId, justification) with
    | .ok justificationTx => justificationTx
    | .error _ => justificationTx

/-- `import_block` after the wrapped import. -/
def finishImport (blockImport : AlephBlockImport Hash S) (block : BlockImportParams Hash Rest)
    (justifications : Option Justifications) (importResult : Except E (ImportResult Aux))
    (now : ℕ) : Result (AlephBlockImport Hash S × Except E (ImportResult Aux)) :=
  match importResult with
  | .ok (.imported importedAux) => do
    let justificationTx := passJustification blockImport.justificationTx block.postHash
      block.header.number justifications
    let metrics ← reportStage blockImport.metrics block.postHash now "imported"
    .ok (⟨justificationTx, metrics⟩, .ok (.imported importedAux))
  | .ok r => .ok (blockImport, .ok r)
  | .error e => .ok (blockImport, .error e)

/-- `JustificationImport::import_justification` -/
def importJustification (blockImport : AlephBlockImport Hash S) (hash : Hash) (number : ℕ)
    (justification : EngineId × List UInt8) : Except ConsensusError (AlephBlockImport Hash S) :=
  match sendJustification blockImport.justificationTx hash number justification with
  | .ok justificationTx => .ok { blockImport with justificationTx := justificationTx }
  | .error .send => .error (.clientImport "Could not send justification to ConsensusParty")
  | .error (.consensus message) => .error (.clientImport message)
  | .error .decode => .error (.clientImport "Could not decode justification")

section Results
variable {blockImport blockImport' : AlephBlockImport Hash S}
  {justificationTx justificationTx' : Channel (JustificationNotification Hash S)}
  {block stripped : BlockImportParams Hash Rest} {hash : Hash} {number now : ℕ}

/-- What a channel holds after a decoded justification was sent. -/
structure Sent (before : Channel (JustificationNotification Hash S)) (hash : Hash) (number : ℕ)
    (raw : List UInt8) (after : Channel (JustificationNotification Hash S)) : Prop where
  decoded : ∃ justification : AlephJustification S, ∃ rest,
    Codec.decode raw = some (justification, rest) ∧
      after = { before with messages := before.messages ++ [⟨justification, hash, number⟩] }

omit [DecidableEq Hash] in
theorem sendJustification_ok {justification : EngineId × List UInt8}
    (h : sendJustification justificationTx hash number justification = .ok justificationTx') :
    justification.1 = alephEngineId ∧
      Sent justificationTx hash number justification.2 justificationTx' := by
  unfold sendJustification at h
  split_ifs at h with hengine
  split at h
  · cases h
  · next decoded rest hdecode =>
    refine ⟨not_not.mp hengine, decoded, rest, hdecode, ?_⟩
    by_cases halive : justificationTx.receiverAlive = true
    · rw [Channel.unboundedSend_alive halive] at h
      exact (Except.ok.inj h).symm
    · rw [Channel.unboundedSend_dropped (Bool.not_eq_true _ ▸ halive)] at h
      cases h

omit [DecidableEq Hash] in
/-- A channel is left as it was, or the justification of this consensus was sent. -/
theorem passJustification_cases (justificationTx : Channel (JustificationNotification Hash S))
    (hash : Hash) (number : ℕ) (justifications : Option Justifications) :
    passJustification justificationTx hash number justifications = justificationTx ∨
      ∃ raw, justifications.bind (·.intoJustification alephEngineId) = some raw ∧
        Sent justificationTx hash number raw
          (passJustification justificationTx hash number justifications) := by
  unfold passJustification
  split
  · exact .inl rfl
  · next raw hraw =>
    split
    · next hsend => exact .inr ⟨raw, hraw, (sendJustification_ok hsend).2⟩
    · exact .inl rfl

omit [Codec (SignatureSet S)] in
/-- The wrapped import gets the block without its justifications. -/
theorem beginImport_ok {justifications : Option Justifications}
    (h : blockImport.beginImport block now = .ok (blockImport', stripped, justifications)) :
    blockImport'.justificationTx = blockImport.justificationTx ∧
      stripped = { block with justifications := none } ∧
      justifications = block.justifications := by
  obtain ⟨metrics, _, hrest⟩ := bind_eq_ok.mp h
  cases hrest
  exact ⟨rfl, rfl, rfl⟩

/-- The result of the wrapped import is returned as it is. A justification is sent only for a
block that was imported. -/
theorem finishImport_ok {justifications : Option Justifications}
    {importResult importResult' : Except E (ImportResult Aux)}
    (h : blockImport.finishImport block justifications importResult now =
      .ok (blockImport', importResult')) :
    importResult' = importResult ∧
      (blockImport'.justificationTx = blockImport.justificationTx ∨
        ∃ aux raw, importResult = .ok (.imported aux) ∧
          justifications.bind (·.intoJustification alephEngineId) = some raw ∧
          Sent blockImport.justificationTx block.postHash block.header.number raw
            blockImport'.justificationTx) := by
  unfold finishImport at h
  split at h
  · next aux =>
    obtain ⟨metrics, _, hrest⟩ := bind_eq_ok.mp h
    cases hrest
    refine ⟨rfl, ?_⟩
    obtain hkept | ⟨raw, hraw, hsent⟩ := passJustification_cases blockImport.justificationTx
      block.postHash block.header.number justifications
    · exact .inl hkept
    · exact .inr ⟨aux, raw, rfl, hraw, hsent⟩
  · cases h
    exact ⟨rfl, .inl rfl⟩
  · cases h
    exact ⟨rfl, .inl rfl⟩

omit [DecidableEq Hash] in
theorem importJustification_ok {justification : EngineId × List UInt8}
    (h : blockImport.importJustification hash number justification = .ok blockImport') :
    justification.1 = alephEngineId ∧
      Sent blockImport.justificationTx hash number justification.2 blockImport'.justificationTx := by
  unfold importJustification at h
  split at h
  · next hsend =>
    cases h
    exact sendJustification_ok hsend
  · cases h
  · cases h
  · cases h

end Results
end AlephBlockImport
end AlephNode
