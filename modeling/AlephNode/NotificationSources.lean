import AlephNode.FinalityNodes

/-!
# Where notifications come from

Every notification that gets to the handler was produced by an import or by an aggregator,
and names the number in the header of its block. So what the handler finalizes is traced
back to its source, and its run is one in which all numbers match.
-/
namespace AlephNode

variable {Hash A S Rest Aux E : Type}

namespace JustificationHandler
variable [SignatureScheme A S] [MultiKeychain S] [Codec Hash] [Codec (SignatureSet S)]
  {task task' : Task Hash A} {event : Event Hash A S}

theorem headers_step (hstep : Step task event task')
    (hown : ∀ headers bestNumber, event ≠ .headersImported headers bestNumber) :
    task'.handler.client.toHeaderStore = task.handler.client.toHeaderStore := by
  cases hstep with
  | iterate run =>
    obtain rfl | ⟨_, _, _, _, rfl⟩ := iterate_cases run
    · rfl
    · rfl
  | notified run =>
    rw [requestJustification_client]
    cases handle_cases run with
    | unchanged => rfl
    | finalized _ _ _ finalizes =>
      obtain ⟨_, _, hheaders, _⟩ := Client.finalizeBlock_eq_some finalizes
      exact hheaders
    | failed => rfl
  | timedOut => rw [requestJustification_client]
  | streamEnded => rfl
  | sessionAuthoritiesChanged => rfl
  | headersImported => exact absurd rfl (hown _ _)

omit [SignatureScheme A S] [MultiKeychain S] [Codec Hash] [Codec (SignatureSet S)] in
theorem Takes.remaining_subset {streams streams' : NotificationStreams Hash S}
    (h : Takes streams event streams') : streams'.remaining ⊆ streams.remaining := by
  intro n hn
  cases event with
  | notified notification now accepted currentTime headerAt =>
    exact (NotificationStreams.Next.remaining_perm h).mem_iff.mpr (List.mem_cons_of_mem _ hn)
  | streamEnded => exact h.2 ▸ hn
  | _ =>
    have hsame : streams' = streams := h
    exact hsame ▸ hn

/-- A call of `finalize_block` carries what the notification in hand says. -/
theorem calls_step (hstep : Step task event task') :
    task'.handler.finalizeCalls = task.handler.finalizeCalls ∨
      ∃ notification now accepted currentTime headerAt succeeded,
        event = .notified notification now accepted currentTime headerAt ∧
        task'.handler.finalizeCalls = ⟨notification.hash, notification.number,
          (alephEngineId, Codec.encode notification.justification), succeeded⟩ ::
            task.handler.finalizeCalls := by
  cases hstep with
  | iterate run =>
    obtain rfl | ⟨_, _, _, _, rfl⟩ := iterate_cases run
    · exact .inl rfl
    · exact .inl rfl
  | notified run =>
    rw [requestJustification_finalizeCalls]
    cases handle_cases run with
    | unchanged => exact .inl rfl
    | finalized => exact .inr ⟨_, _, _, _, _, true, rfl, rfl⟩
    | failed => exact .inr ⟨_, _, _, _, _, false, rfl, rfl⟩
  | timedOut =>
    rw [requestJustification_finalizeCalls]
    exact .inl rfl
  | streamEnded => exact .inl rfl
  | sessionAuthoritiesChanged => exact .inl rfl
  | headersImported => exact .inl rfl

end JustificationHandler

namespace RunAggregator
variable [DecidableEq Hash] {client : HeaderStore Hash} {task task' : RunAggregator Hash S}
  {event : Event Hash S}

theorem processHeaders_justificationTx (task : RunAggregator Hash S)
    (headers : List (Header Hash)) :
    (task.processHeaders headers).justificationTx = task.justificationTx := by
  induction headers generalizing task with
  | nil => rfl
  | cons header headers ih =>
    unfold processHeaders
    dsimp only
    split_ifs
    · rfl
    · rw [ih]
    · rfl
    · rw [ih]

/-- What an aggregator sends is the multisignature that it has got for a hash, with the number
that the client knows for it. -/
theorem justificationTx_step (hstep : Step client task event task') :
    ∃ sent, task'.justificationTx.messages = task.justificationTx.messages ++ sent ∧
      ∀ n ∈ sent, event = .multisigned n.hash n.justification.signature ∧
        client.number n.hash = some n.number := by
  cases hstep with
  | data =>
    refine ⟨[], ?_, by simp⟩
    simp only [processData, processHeaders_justificationTx, List.append_nil]
  | multisigned _ _ run =>
    unfold sendJustification at run
    split at run
    · cases run
    · next number hnumber =>
      cases run
      unfold Channel.sendAll
      split
      · refine ⟨_, rfl, ?_⟩
        intro n hn
        rw [List.mem_singleton.mp hn]
        exact ⟨rfl, hnumber⟩
      · exact ⟨[], (List.append_nil _).symm, by simp⟩
  | _ => exact ⟨[], (List.append_nil _).symm, by simp⟩

end RunAggregator

namespace FinalityNode
variable [SignatureScheme A S] [MultiKeychain S] [Codec Hash] [Codec (SignatureSet S)]
  {tree : HeaderStore Hash} {start node node' : FinalityNode Hash A S Rest Aux E}
  {events : List (Event Hash A S Rest Aux E)} {event : Event Hash A S Rest Aux E}

/-- The number of the notification is that in the header of its block. -/
def Numbered (tree : HeaderStore Hash) (notification : JustificationNotification Hash S) : Prop :=
  ∀ header, tree.header notification.hash = some header → header.number = notification.number

/-- What is known of a call of `import_block` that is under way. -/
def Underway (events : List (Event Hash A S Rest Aux E)) (client : HeaderStore Hash) :
    Importing Hash Rest Aux E → Prop
  | .begun block justifications =>
    block.justifications = none ∧
      ∃ now, .importBegun { block with justifications := justifications } now ∈ events
  | .applied block justifications importResult =>
    block.justifications = none ∧
      (∃ now, .importBegun { block with justifications := justifications } now ∈ events) ∧
      (∃ headers bestNumber, .importApplied block importResult headers bestNumber ∈ events) ∧
      ∀ aux, importResult = .ok (.imported aux) → ∃ header,
        client.header block.postHash = some header ∧ header.number = block.header.number

/-- The call of `finalize_block` is made for a notification that was produced. -/
def CallProduced (events : List (Event Hash A S Rest Aux E)) (call : FinalizeCall Hash) : Prop :=
  ∃ notification, Produced events notification ∧ notification.hash = call.hash ∧
    notification.number = call.number ∧
    call.justification = (alephEngineId, Codec.encode notification.justification)

structure Accounted (tree : HeaderStore Hash) (start : FinalityNode Hash A S Rest Aux E)
    (events : List (Event Hash A S Rest Aux E)) (node : FinalityNode Hash A S Rest Aux E) :
    Prop where
  run : ∃ handlerEvents : List (JustificationHandler.Event Hash A S),
    JustificationHandler.MatchingRun start.task handlerEvents node.task
  headers : node.client.toHeaderStore.Subset tree
  imports : ∀ i ∈ node.imports, Underway events node.client.toHeaderStore i
  queued : ∀ n ∈ node.streams.remaining, Produced events n ∧ Numbered tree n
  calls : ∀ call ∈ node.task.handler.finalizeCalls, CallProduced events call

section Monotone
variable {client client' : HeaderStore Hash} {notification : JustificationNotification Hash S}

omit [SignatureScheme A S] [MultiKeychain S] [Codec Hash] in
theorem Produced.cons (h : Produced events notification) (event : Event Hash A S Rest Aux E) :
    Produced (event :: events) notification := by
  cases h with
  | withBlock begun carries decoded applied hash number =>
    exact .withBlock (List.mem_cons_of_mem _ begun) carries decoded
      (List.mem_cons_of_mem _ applied) hash number
  | alone imported decoded => exact .alone (List.mem_cons_of_mem _ imported) decoded
  | aggregated multisigned => exact .aggregated (List.mem_cons_of_mem _ multisigned)

omit [SignatureScheme A S] [MultiKeychain S] [Codec Hash] in
theorem CallProduced.cons {call : FinalizeCall Hash} (h : CallProduced events call)
    (event : Event Hash A S Rest Aux E) : CallProduced (event :: events) call := by
  obtain ⟨notification, hproduced, hrest⟩ := h
  exact ⟨notification, hproduced.cons event, hrest⟩

omit [SignatureScheme A S] [MultiKeychain S] [Codec Hash] [Codec (SignatureSet S)] in
theorem Underway.mono {i : Importing Hash Rest Aux E} (h : Underway events client i)
    (hsubset : client.Subset client') (event : Event Hash A S Rest Aux E) :
    Underway (event :: events) client' i := by
  cases i with
  | begun block justifications =>
    obtain ⟨hnone, now, hbegun⟩ := h
    exact ⟨hnone, now, List.mem_cons_of_mem _ hbegun⟩
  | applied block justifications importResult =>
    obtain ⟨hnone, ⟨now, hbegun⟩, ⟨headers, bestNumber, happlied⟩, himported⟩ := h
    refine ⟨hnone, ⟨now, List.mem_cons_of_mem _ hbegun⟩,
      ⟨headers, bestNumber, List.mem_cons_of_mem _ happlied⟩, ?_⟩
    intro aux hresult
    obtain ⟨header, hheader, hnumber⟩ := himported aux hresult
    exact ⟨header, hsubset _ _ hheader, hnumber⟩

end Monotone

theorem accounted_initial (h : AtStart tree start) :
    Accounted tree start ([] : List (Event Hash A S Rest Aux E)) start where
  run := ⟨[], .refl⟩
  headers := h.headers
  imports := by simp [h.imports]
  queued := by simp [h.streams]
  calls := by simp [h.finalizeCalls]

private theorem Accounted.sent (h : Accounted tree start events node)
    (htask : node'.task = node.task) (himports : node'.imports ⊆ node.imports)
    (hqueued : ∀ n ∈ node'.streams.remaining, n ∈ node.streams.remaining ∨
      Produced (event :: events) n ∧ Numbered tree n) :
    Accounted tree start (event :: events) node' where
  run := by
    rw [htask]
    exact h.run
  headers := by
    rw [client, htask]
    exact h.headers
  imports i hi := by
    rw [client, htask]
    exact (h.imports i (himports hi)).mono (HeaderStore.Subset.refl _) event
  queued n hn := by
    obtain hbefore | hnew := hqueued n hn
    · exact ⟨(h.queued n hbefore).1.cons event, (h.queued n hbefore).2⟩
    · exact hnew
  calls call hcall := by
    rw [htask] at hcall
    exact (h.calls call hcall).cons event

section Steps
variable [DecidableEq Hash]

omit [SignatureScheme A S] [MultiKeychain S] [Codec Hash] [DecidableEq Hash] in
private theorem mem_remaining_of_sent {blockImport : AlephBlockImport Hash S} {hash : Hash}
    {number : ℕ} {raw : List UInt8} {n : JustificationNotification Hash S}
    (hsent : AlephBlockImport.Sent node.blockImport.justificationTx hash number raw
      blockImport.justificationTx)
    (hn : n ∈ blockImport.justificationTx.messages ++ node.authorityJustificationTx.messages) :
    n ∈ node.streams.remaining ∨ ∃ rest, Codec.decode raw = some (n.justification, rest) ∧
      n.hash = hash ∧ n.number = number := by
  obtain ⟨justification, rest, hdecode, hafter⟩ := hsent.decoded
  rw [hafter] at hn
  simp only [List.append_assoc, List.mem_append, List.singleton_append, List.mem_cons] at hn
  simp only [streams, NotificationStreams.remaining, List.mem_append]
  rcases hn with hn | rfl | hn
  · exact .inl (.inl hn)
  · exact .inr ⟨rest, hdecode, rfl, rfl⟩
  · exact .inl (.inr hn)

private theorem accounted_begun (h : Accounted tree start events node)
    {block stripped : BlockImportParams Hash Rest} {now : ℕ} {blockImport : AlephBlockImport Hash S}
    {justifications : Option Justifications}
    (hrun : node.blockImport.beginImport block now = .ok (blockImport, stripped, justifications)) :
    Accounted tree start (.importBegun block now :: events) { node with
      blockImport := blockImport, imports := .begun stripped justifications :: node.imports } := by
  obtain ⟨htx, rfl, rfl⟩ := AlephBlockImport.beginImport_ok hrun
  refine ⟨h.run, h.headers, ?_, ?_, fun call hcall => (h.calls call hcall).cons _⟩
  · intro i hi
    rcases List.mem_cons.mp hi with rfl | hi
    · exact ⟨rfl, now, List.mem_cons_self⟩
    · exact (h.imports i hi).mono (HeaderStore.Subset.refl _) _
  · intro n hn
    simp only [streams, htx] at hn
    exact ⟨(h.queued n hn).1.cons _, (h.queued n hn).2⟩

omit [DecidableEq Hash] in
private theorem accounted_applied (h : Accounted tree start events node)
    {before after : List (Importing Hash Rest Aux E)} {block : BlockImportParams Hash Rest}
    {justifications : Option Justifications} {importResult : Except E (ImportResult Aux)}
    {headers : HeaderStore Hash} {bestNumber : ℕ}
    (hpending : node.imports = before ++ .begun block justifications :: after)
    (hgrows : node.client.toHeaderStore.Subset headers) (htree : headers.Subset tree)
    (himported : ∀ aux, importResult = .ok (.imported aux) → ∃ header,
      headers.header block.postHash = some header ∧ header.number = block.header.number) :
    Accounted tree start (.importApplied block importResult headers bestNumber :: events) { node with
      task.handler.client.toHeaderStore := headers
      task.handler.client.bestNumber := bestNumber
      imports := before ++ .applied block justifications importResult :: after } := by
  obtain ⟨handlerEvents, hrun⟩ := h.run
  have hbegun := h.imports (.begun block justifications) (by simp [hpending])
  refine ⟨⟨.headersImported headers bestNumber :: handlerEvents,
    hrun.tail ⟨trivial, .headersImported hgrows⟩⟩, htree, ?_, ?_,
    fun call hcall => (h.calls call hcall).cons _⟩
  · intro i hi
    have hcases : i = .applied block justifications importResult ∨ i ∈ node.imports := by
      rw [hpending]
      simp only [List.mem_append, List.mem_cons] at hi ⊢
      tauto
    obtain rfl | hi := hcases
    · obtain ⟨hnone, now, hmem⟩ := hbegun
      exact ⟨hnone, ⟨now, List.mem_cons_of_mem _ hmem⟩, ⟨headers, bestNumber, List.mem_cons_self⟩,
        himported⟩
    · exact (h.imports i hi).mono hgrows _
  · intro n hn
    exact ⟨(h.queued n hn).1.cons _, (h.queued n hn).2⟩

private theorem accounted_finished (h : Accounted tree start events node)
    {before after : List (Importing Hash Rest Aux E)} {block : BlockImportParams Hash Rest}
    {justifications : Option Justifications} {applied importResult : Except E (ImportResult Aux)}
    {blockImport : AlephBlockImport Hash S} {now : ℕ}
    (hpending : node.imports = before ++ .applied block justifications applied :: after)
    (hrun : node.blockImport.finishImport block justifications applied now =
      .ok (blockImport, importResult)) :
    Accounted tree start (.importFinished block importResult now :: events)
      { node with blockImport := blockImport, imports := before ++ after } := by
  have hunderway := h.imports (.applied block justifications applied) (by simp [hpending])
  refine Accounted.sent h ?_ ?_ ?_
  · rfl
  · intro i hi
    rw [hpending]
    rcases List.mem_append.mp hi with hi | hi
    · exact List.mem_append_left _ hi
    · exact List.mem_append_right _ (List.mem_cons_of_mem _ hi)
  · intro n hn
    obtain ⟨_, hkept | ⟨aux, raw, rfl, hraw, hsent⟩⟩ := AlephBlockImport.finishImport_ok hrun
    · simp only [streams, hkept] at hn
      exact .inl hn
    · obtain hbefore | ⟨rest, hdecode, hhash, hnumber⟩ := mem_remaining_of_sent hsent hn
      · exact .inl hbefore
      · obtain ⟨hnone, ⟨begunAt, hbegun⟩, ⟨headers, bestNumber, happlied⟩, himported⟩ := hunderway
        obtain ⟨header, hheader, hheaderNumber⟩ := himported aux rfl
        have hstripped : block = { block with justifications := none } := by rw [← hnone]
        rw [hstripped] at happlied
        refine .inr ⟨.withBlock (List.mem_cons_of_mem _ hbegun) hraw hdecode
          (List.mem_cons_of_mem _ happlied) hhash.symm hnumber.symm, ?_⟩
        intro treeHeader htreeHeader
        rw [hhash, h.headers _ _ hheader, Option.some.injEq] at htreeHeader
        rw [← htreeHeader, hheaderNumber, hnumber]

omit [DecidableEq Hash] in
private theorem accounted_alone (h : Accounted tree start events node) {hash : Hash} {number : ℕ}
    {justification : EngineId × List UInt8} {blockImport : AlephBlockImport Hash S}
    (hnumber : ∀ header, tree.header hash = some header → header.number = number)
    (hrun : node.blockImport.importJustification hash number justification = .ok blockImport) :
    Accounted tree start (.justificationImported hash number justification :: events)
      { node with blockImport := blockImport } := by
  obtain ⟨hengine, hsent⟩ := AlephBlockImport.importJustification_ok hrun
  obtain ⟨engine, raw⟩ := justification
  dsimp only at hengine hsent
  subst hengine
  refine Accounted.sent h ?_ (List.Subset.refl _) ?_
  · rfl
  intro n hn
  obtain hbefore | ⟨rest, hdecode, rfl, rfl⟩ := mem_remaining_of_sent hsent hn
  · exact .inl hbefore
  · exact .inr ⟨.alone List.mem_cons_self hdecode, hnumber⟩

private theorem accounted_aggregator (h : Accounted tree start events node) {session : SessionId}
    {task task' : RunAggregator Hash S} {event : RunAggregator.Event Hash S}
    (hstep : RunAggregator.Step node.client.toHeaderStore task event task') :
    Accounted tree start (.aggregator session event :: events)
      (node.aggregatorMoved session task task') := by
  obtain ⟨sent, hsent, hnumbers⟩ := RunAggregator.justificationTx_step hstep
  refine Accounted.sent h ?_ (List.Subset.refl _) ?_
  · rfl
  intro n hn
  obtain ⟨added, hadded, hsubset⟩ := node.authorityJustificationTx.sendAll_messages
    (task'.justificationTx.messages.drop task.justificationTx.messages.length)
  simp only [streams, aggregatorMoved, NotificationStreams.remaining, hadded,
    List.mem_append] at hn
  rw [hsent, List.drop_left] at hsubset
  simp only [streams, NotificationStreams.remaining, List.mem_append]
  rcases hn with hn | hn | hn
  · exact .inl (.inl hn)
  · exact .inl (.inr hn)
  · obtain ⟨rfl, hnumber⟩ := hnumbers n (hsubset hn)
    obtain ⟨header, hheader, hheaderNumber⟩ := Option.map_eq_some_iff.mp hnumber
    refine .inr ⟨.aggregated List.mem_cons_self, ?_⟩
    intro treeHeader htreeHeader
    rw [h.headers _ _ hheader, Option.some.injEq] at htreeHeader
    rw [← htreeHeader, hheaderNumber]

omit [DecidableEq Hash] in
private theorem accounted_handler (h : Accounted tree start events node)
    {event : JustificationHandler.Event Hash A S} {task : JustificationHandler.Task Hash A}
    {streams : NotificationStreams Hash S}
    (hstep : JustificationHandler.Step node.task event task)
    (htakes : JustificationHandler.Takes node.streams event streams)
    (hown : ∀ headers bestNumber, event ≠ .headersImported headers bestNumber) :
    Accounted tree start (.handler event :: events) (node.handlerMoved task streams) := by
  have hheaders : task.handler.client.toHeaderStore = node.client.toHeaderStore :=
    JustificationHandler.headers_step hstep hown
  have htree : task.handler.client.toHeaderStore.Subset tree := hheaders ▸ h.headers
  have hsubset : ∀ n ∈ streams.remaining, n ∈ node.streams.remaining :=
    fun n hn => htakes.remaining_subset hn
  have hmatch : JustificationHandler.NumbersMatch node.task event := by
    cases event with
    | notified notification now accepted currentTime headerAt =>
      intro header hheader
      have hqueued := h.queued _ (NotificationStreams.Next.mem_remaining htakes)
      exact hqueued.2 header (h.headers _ _ hheader)
    | _ => trivial
  obtain ⟨handlerEvents, hrun⟩ := h.run
  refine ⟨⟨event :: handlerEvents, hrun.tail ⟨hmatch, hstep⟩⟩, htree, ?_, ?_, ?_⟩
  · intro i hi
    rw [client, handlerMoved, hheaders]
    exact (h.imports i hi).mono (HeaderStore.Subset.refl _) _
  · intro n hn
    have hqueued := h.queued n (hsubset n hn)
    exact ⟨hqueued.1.cons _, hqueued.2⟩
  · intro call hcall
    obtain hsame | ⟨notification, _, _, _, _, _, rfl, hcalls⟩ :=
      JustificationHandler.calls_step hstep
    · exact (h.calls call (hsame ▸ hcall)).cons _
    · simp only [handlerMoved, hcalls, List.mem_cons] at hcall
      rcases hcall with rfl | hcall
      · have hqueued := h.queued _ (NotificationStreams.Next.mem_remaining htakes)
        exact ⟨notification, hqueued.1.cons _, rfl, rfl, rfl⟩
      · exact (h.calls call hcall).cons _

theorem accounted_step (h : Accounted tree start events node)
    (hstep : Guarded Step (Assumed tree) node event node') :
    Accounted tree start (event :: events) node' := by
  obtain ⟨hassumed, hstep⟩ := hstep
  cases hstep with
  | importBegun run => exact accounted_begun h run
  | importApplied pending grows imported => exact accounted_applied h pending grows hassumed imported
  | importFinished pending run => exact accounted_finished h pending run
  | justificationImported run => exact accounted_alone h hassumed run
  | justificationRefused => exact h.sent rfl (List.Subset.refl _) (fun n hn => .inl hn)
  | aggregatorStarted session => exact h.sent rfl (List.Subset.refl _) (fun n hn => .inl hn)
  | aggregator running step => exact accounted_aggregator h step
  | handler step takes own => exact accounted_handler h step takes own

theorem accounted_of_run (hstart : AtStart tree start)
    (hrun : Run (Guarded Step (Assumed tree)) start events node) :
    Accounted tree start events node :=
  hrun.history_invariant (Accounted tree start) (accounted_initial hstart)
    (fun _ _ _ _ _ h hstep => accounted_step h hstep)

/-- Whatever is imported and aggregated, in whatever order: each call that finalizes a block is
made for a notification that was produced, with the block, the number and the justification of
that notification; it carries a complete justification by the authorities of the session of
its block; and the numbers of the successful calls increase. -/
theorem finalization_traced (hstart : AtStart tree start)
    (hrun : Run (Guarded Step (Assumed tree)) start events node) :
    ∃ handlerEvents : List (JustificationHandler.Event Hash A S),
      JustificationHandler.MatchingRun start.task handlerEvents node.task ∧
      (∀ call ∈ node.task.handler.finalizeCalls, CallProduced events call ∧
        JustificationHandler.JustifiedInRun S start.task handlerEvents call) ∧
      (JustificationHandler.finalizedNumbers node.task.handler.finalizeCalls).Pairwise (· > ·) := by
  have h := accounted_of_run hstart hrun
  obtain ⟨handlerEvents, hmatching⟩ := h.run
  have hconsistent := JustificationHandler.consistent_of_run hstart.loop hstart.finalizeCalls
    hmatching
  refine ⟨handlerEvents, hmatching, ?_, (List.pairwise_append.mp hconsistent.increasing).1⟩
  intro call hcall
  exact ⟨h.calls call hcall, hconsistent.justified call hcall⟩

end Steps

section Example
attribute [local instance] nodeIndexCodec

def newcomer : FinalityNode ℕ PlainKey PlainSignature Unit Unit Unit where
  task := ⟨{ JustificationHandler.singleAuthority ⟨10⟩ with client := Client.ofLine 0 0 }, .top⟩
  blockImport := ⟨.unbounded, none⟩
  imports := []
  authorityJustificationTx := .unbounded
  aggregators := ∅

/-- The first block above genesis, with its complete justification. -/
def firstBlock : BlockImportParams ℕ Unit where
  header := ⟨2, 1, 1⟩
  postHash := 2
  justifications := some [(alephEngineId, Codec.encode (JustificationHandler.singleJustification 2))]
  rest := ()

theorem newcomer_atStart : AtStart (Client.ofLine 3 0).toHeaderStore newcomer where
  loop := rfl
  finalizeCalls := rfl
  headers := (Client.ofLine_grows (by decide) (Nat.le_refl _)).headers
  imports := rfl
  streams := rfl

def firstBlockStripped : BlockImportParams ℕ Unit := { firstBlock with justifications := none }

def newcomerBegun : FinalityNode ℕ PlainKey PlainSignature Unit Unit Unit :=
  { newcomer with imports := [.begun firstBlockStripped firstBlock.justifications] }

def newcomerImporting : FinalityNode ℕ PlainKey PlainSignature Unit Unit Unit :=
  { newcomer with
    task := ⟨{ JustificationHandler.singleAuthority ⟨10⟩ with client := Client.ofLine 1 0 }, .top⟩
    imports := [.applied firstBlockStripped firstBlock.justifications (.ok (.imported ()))] }

def newcomerImported : FinalityNode ℕ PlainKey PlainSignature Unit Unit Unit :=
  { newcomerImporting with
    blockImport := ⟨⟨[JustificationHandler.singleNotification 1], true⟩, none⟩
    imports := [] }

def NewcomerReaches (node : FinalityNode ℕ PlainKey PlainSignature Unit Unit Unit) : Prop :=
  ∃ events, Run (Guarded Step (Assumed (Client.ofLine 3 0).toHeaderStore)) newcomer events node

private theorem NewcomerReaches.step
    {node node' : FinalityNode ℕ PlainKey PlainSignature Unit Unit Unit}
    {event : Event ℕ PlainKey PlainSignature Unit Unit Unit} (h : NewcomerReaches node)
    (hstep : Step node event node') (hassumed : Assumed (Client.ofLine 3 0).toHeaderStore node event) :
    NewcomerReaches node' := by
  obtain ⟨events, hrun⟩ := h
  exact ⟨event :: events, hrun.tail ⟨hassumed, hstep⟩⟩

private theorem newcomer_imports : NewcomerReaches newcomerImported := by
  have hbegun : Step newcomer (.importBegun firstBlock 0) newcomerBegun := .importBegun rfl
  have hpending : newcomerBegun.imports =
      [] ++ .begun firstBlockStripped firstBlock.justifications :: [] := rfl
  have happlied : Step newcomerBegun (.importApplied firstBlockStripped (.ok (.imported ()))
      (Client.ofLine 1 0).toHeaderStore 1) newcomerImporting := by
    refine .importApplied hpending ?_ ?_
    · exact (Client.ofLine_grows (by decide) (Nat.le_refl _)).headers
    · exact fun _ _ => ⟨⟨2, 1, 1⟩, rfl, rfl⟩
  have hfinishing : newcomerImporting.imports = [] ++
      .applied firstBlockStripped firstBlock.justifications (.ok (.imported ())) :: [] := rfl
  have hfinished : Step newcomerImporting
      (.importFinished firstBlockStripped (.ok (.imported ())) 0) newcomerImported :=
    .importFinished hfinishing rfl
  have htree : (Client.ofLine 1 0).toHeaderStore.Subset (Client.ofLine 3 0).toHeaderStore :=
    (Client.ofLine_grows (by decide) (Nat.le_refl _)).headers
  have hstart : NewcomerReaches newcomer := ⟨[], .refl⟩
  exact ((hstart.step hbegun trivial).step happlied htree).step hfinished trivial

private theorem newcomer_finalizes : ∃ node, NewcomerReaches node ∧
    node.task.handler.finalizeCalls = [⟨2, 1,
      (alephEngineId, Codec.encode (JustificationHandler.singleJustification 2)), true⟩] := by
  have hiterate : newcomerImported.task.handler.iterate =
      .ok ⟨newcomerImported.task.handler, .waiting ⟨⟨0⟩, ⟨7⟩, [⟨7⟩]⟩ 0 9⟩ := rfl
  have hwaiting : Step newcomerImported (.handler .iterate)
      (newcomerImported.handlerMoved
        ⟨newcomerImported.task.handler, .waiting ⟨⟨0⟩, ⟨7⟩, [⟨7⟩]⟩ 0 9⟩
        newcomerImported.streams) := .handler (.iterate hiterate) rfl nofun
  have hnotified : ∃ node, Step (newcomerImported.handlerMoved
        ⟨newcomerImported.task.handler, .waiting ⟨⟨0⟩, ⟨7⟩, [⟨7⟩]⟩ 0 9⟩ newcomerImported.streams)
      (.handler (.notified (JustificationHandler.singleNotification 1) 0 true 0 none)) node ∧
      node.task.handler.finalizeCalls = [⟨2, 1,
        (alephEngineId, Codec.encode (JustificationHandler.singleJustification 2)), true⟩] :=
    ⟨_, .handler (.notified rfl) .fromImport nofun, rfl⟩
  obtain ⟨node, hnotified, hcalls⟩ := hnotified
  exact ⟨node, (newcomer_imports.step hwaiting trivial).step hnotified trivial, hcalls⟩

theorem finalization_traced_newcomer :
    ∃ (events : List (Event ℕ PlainKey PlainSignature Unit Unit Unit))
      (node : FinalityNode ℕ PlainKey PlainSignature Unit Unit Unit),
      node.task.handler.finalizeCalls ≠ [] ∧
      ∀ call ∈ node.task.handler.finalizeCalls, CallProduced events call := by
  obtain ⟨node, ⟨events, hrun⟩, hcalls⟩ := newcomer_finalizes
  obtain ⟨_, _, htraced, _⟩ := finalization_traced newcomer_atStart hrun
  refine ⟨events, node, ?_, fun call hcall => (htraced call hcall).1⟩
  rw [hcalls]
  exact List.cons_ne_nil _ _

end Example

end FinalityNode
end AlephNode
