import AlephNode.FinalityLogs

/-!
# Replayed logs

The justifications of a log of finality are stored with its blocks. A node that imports them
one after another finalizes the same blocks: at every point of such a run its handler has
finalized what was imported, except for what still waits on the stream of notifications, and
in some run nothing waits at the end.
-/
namespace AlephNode

variable {Hash A S Rest Aux E : Type}

def FinalizeCall.stored (call : FinalizeCall Hash) : Hash × ℕ × EngineId × List UInt8 :=
  (call.hash, call.number, call.justification)

namespace FinalityNode
variable [SignatureScheme A S] [MultiKeychain S] [Codec Hash] [Codec (SignatureSet S)]
  {authoritiesOf : SessionId → List A}
  {start node node' : FinalityNode Hash A S Rest Aux E} {log : List (FinalizeCall Hash)}
  {call : FinalizeCall Hash} {event : Event Hash A S Rest Aux E}
  {events : List (Event Hash A S Rest Aux E)}

def sessionPeriod (node : FinalityNode Hash A S Rest Aux E) : SessionPeriod :=
  node.task.handler.chainCadence.sessionPeriod

def Event.importedAlone : Event Hash A S Rest Aux E → Option (Hash × ℕ × EngineId × List UInt8)
  | .justificationImported hash number justification => some (hash, number, justification)
  | _ => none

/-- The justifications that were imported alone, the most recent one first. -/
def importedAlone (events : List (Event Hash A S Rest Aux E)) :
    List (Hash × ℕ × EngineId × List UInt8) :=
  events.filterMap Event.importedAlone

/-- The node imports justifications alone, all authorities in the map are those of their
sessions, and the client finalizes what it is asked to. -/
def Replaying (authoritiesOf : SessionId → List A) (_ : FinalityNode Hash A S Rest Aux E) :
    Event Hash A S Rest Aux E → Prop
  | .justificationImported _ _ _ => True
  | .handler (.notified _ _ accepted _ _) => accepted = true
  | .handler (.sessionAuthoritiesChanged sessionAuthorities) =>
    JustificationHandler.Lists sessionAuthorities authoritiesOf
  | .handler _ => True
  | _ => False

/-- The notification is the one that the stored justification of the call becomes. -/
structure Restored (call : FinalizeCall Hash) (notification : JustificationNotification Hash S) :
    Prop where
  hash : notification.hash = call.hash
  number : notification.number = call.number
  bytes : call.justification = (alephEngineId, Codec.encode notification.justification)
  reads : Codec.ReadsBack notification.justification

/-- What was imported has been finalized, or waits on the stream. -/
structure Replayed (authoritiesOf : SessionId → List A)
    (start : FinalityNode Hash A S Rest Aux E) (log : List (FinalizeCall Hash))
    (events : List (Event Hash A S Rest Aux E)) (node : FinalityNode Hash A S Rest Aux E) :
    Prop where
  logged : JustificationHandler.Logged S authoritiesOf start.task node.task
  headers : node.client.toHeaderStore = start.client.toHeaderStore
  authorityStream : node.streams.authorityStream = []
  waiting : ∃ waiting, waiting ++ node.task.handler.finalizeCalls <:+ log ∧
    importedAlone events = (waiting ++ node.task.handler.finalizeCalls).map FinalizeCall.stored ∧
    List.Forall₂ Restored waiting.reverse node.streams.importStream

/-- The node knows the block of the call, and the authorities of its session. -/
structure CanFinalize (authoritiesOf : SessionId → List A)
    (node : FinalityNode Hash A S Rest Aux E) (call : FinalizeCall Hash) : Prop where
  known : node.client.number call.hash = some call.number
  authorities : ∀ session, sessionIdFromBlockNum call.number node.sessionPeriod = .ok session →
    node.task.handler.sessionAuthorities.lookup session = some (authoritiesOf session)

/-- The node has finalized the log since it started, and waits for nothing. -/
structure Follows (start : FinalityNode Hash A S Rest Aux E) (log : List (FinalizeCall Hash))
    (node : FinalityNode Hash A S Rest Aux E) : Prop where
  loop : node.task.loop = .top
  finalizeCalls : node.task.handler.finalizeCalls = log
  latest : node.client.finalizedNumber = lastNumber start.client.finalizedNumber log
  headers : node.client.toHeaderStore = start.client.toHeaderStore
  sessionAuthorities : node.task.handler.sessionAuthorities = start.task.handler.sessionAuthorities
  sessionPeriod : node.sessionPeriod = start.sessionPeriod
  importStream : node.blockImport.justificationTx = .unbounded
  authorityStream : node.authorityJustificationTx.messages = []

omit [SignatureScheme A S] [MultiKeychain S] [Codec Hash] in
private theorem import_ready {justification : AlephJustification S}
    (hstream : node.blockImport.justificationTx = .unbounded)
    (hbytes : call.justification = (alephEngineId, Codec.encode justification))
    (hreads : Codec.ReadsBack justification) :
    node.blockImport.importJustification call.hash call.number call.justification =
      .ok { node.blockImport with
        justificationTx := ⟨[⟨justification, call.hash, call.number⟩], true⟩ } := by
  have hdecode : Codec.decode (Codec.encode justification) = some (justification, []) := by
    simpa using hreads []
  rw [AlephBlockImport.importJustification, hstream, hbytes, sendJustification_decoded hdecode]

section Replays

private theorem exists_cons_suffix {α β : Type} {f : α → β} {l l' : List α} {b : β}
    (hsuffix : l <:+ l') (hmap : b :: l.map f <:+ l'.map f) : ∃ a, f a = b ∧ a :: l <:+ l' := by
  obtain ⟨before, rfl⟩ := hsuffix
  obtain ⟨images, himages⟩ := hmap
  rw [List.map_append, ← List.singleton_append, ← List.append_assoc] at himages
  have hbefore : before.map f = images ++ [b] := (List.append_cancel_right himages).symm
  obtain ⟨front, last, rfl, _, hlast⟩ := List.map_eq_append_iff.mp hbefore
  obtain ⟨a, rfl, ha⟩ := List.map_eq_singleton_iff.mp hlast
  exact ⟨a, ha, front, by simp⟩

private theorem replayed_imported {hash : Hash} {number : ℕ} {justification : EngineId × List UInt8}
    {blockImport : AlephBlockImport Hash S}
    (hlog : FinalityLog S start.sessionPeriod authoritiesOf start.client.finalizedNumber log)
    (h : Replayed authoritiesOf start log events node)
    (hrun : node.blockImport.importJustification hash number justification = .ok blockImport)
    (horder : (hash, number, justification) :: importedAlone events <:+
      log.map FinalizeCall.stored) :
    Replayed authoritiesOf start log
      (.justificationImported hash number justification :: events)
      { node with blockImport := blockImport } := by
  obtain ⟨waiting, hsuffix, himported, hrestored⟩ := h.waiting
  rw [himported] at horder
  obtain ⟨call, hstored, hcall⟩ := exists_cons_suffix hsuffix horder
  obtain ⟨_, _, session, stored, _, _, hbytes, hreads, _⟩ := (hlog.suffix hcall).1
  obtain ⟨_, hsent⟩ := AlephBlockImport.importJustification_ok hrun
  cases hstored
  obtain ⟨decoded, rest, hdecode, htx⟩ := hsent.decoded
  have hsame : decoded = stored := by
    have hencoded : Codec.decode (Codec.encode stored) = some (stored, []) := by
      simpa using hreads []
    rw [hbytes, hencoded, Option.some.injEq, Prod.mk.injEq] at hdecode
    exact hdecode.1.symm
  subst hsame
  refine ⟨h.logged, h.headers, h.authorityStream, call :: waiting, hcall, ?_, ?_⟩
  · show call.stored :: importedAlone events = _
    rw [himported]
    rfl
  · have hmessages : blockImport.justificationTx.messages =
        node.streams.importStream ++ [⟨decoded, call.hash, call.number⟩] := by
      rw [htx]
      rfl
    show List.Forall₂ Restored (call :: waiting).reverse blockImport.justificationTx.messages
    rw [hmessages, List.reverse_cons]
    exact List.rel_append hrestored (.cons ⟨rfl, rfl, hbytes, hreads⟩ .nil)

private theorem finalized_next {task task' : JustificationHandler.Task Hash A}
    {notification : JustificationNotification Hash S} {now currentTime : ℕ}
    {headerAt : Option (Header Hash)} {earlier : List (FinalizeCall Hash)}
    (hlogged : JustificationHandler.Logged S authoritiesOf start.task task)
    (hcalls : task.succeededCalls = earlier)
    (hcontinues : Continues S start.sessionPeriod authoritiesOf
      (lastNumber start.client.finalizedNumber earlier) call)
    (hknown : task.handler.client.number call.hash = some call.number)
    (hrestored : Restored call notification)
    (hstep : JustificationHandler.Step task
      (.notified notification now true currentTime headerAt) task') :
    task'.handler.finalizeCalls = call :: task.handler.finalizeCalls := by
  obtain ⟨hsucceeded, habove, session, justification, hsession, hbelow, hbytes, hreads,
    hcomplete⟩ := hcontinues
  cases hstep with
  | @notified handler handler' keybox lastFinalized stopH _ _ _ _ _ run =>
    obtain ⟨hlast, session', hsession', hstop, hauthorities⟩ := hlogged.waiting _ _ _ rfl
    have hlatest : lastFinalized = lastNumber start.client.finalizedNumber earlier := by
      rw [hlast, hlogged.latest, hcalls]
      rfl
    have hsame : session' = session := by
      rw [hlatest] at hsession'
      exact Except.ok.inj (hsession'.symm.trans hsession)
    subst hsame
    have hjustification : notification.justification = justification := by
      have hencoded : Codec.encode notification.justification = Codec.encode justification :=
        congrArg Prod.snd (hrestored.bytes.symm.trans hbytes)
      exact Codec.ReadsBack.eq_of_prefix hrestored.reads hreads ⟨[], by rw [hencoded, List.append_nil]⟩
    subst hjustification
    obtain ⟨header, hheader, _⟩ := Option.map_eq_some_iff.mp hknown
    rw [← hrestored.hash] at hheader
    have hfinalizes := Client.finalizeBlock_of_known hheader
    rw [← hrestored.hash, ← hauthorities] at hcomplete
    rw [← hrestored.number] at habove hbelow
    rw [JustificationHandler.handle_finalizes hcomplete (hlatest ▸ habove) (hstop ▸ hbelow)
      hfinalizes, Except.ok.injEq] at run
    rw [JustificationHandler.requestJustification_finalizeCalls, ← run, ← hbytes, ← hsucceeded,
      hrestored.hash, hrestored.number]

private theorem replayed_taken {task : JustificationHandler.Task Hash A}
    {notification : JustificationNotification Hash S} {now currentTime : ℕ}
    {headerAt : Option (Header Hash)} {streams : NotificationStreams Hash S}
    (hlog : FinalityLog S start.sessionPeriod authoritiesOf start.client.finalizedNumber log)
    (hknown : ∀ call ∈ log, start.client.number call.hash = some call.number)
    (h : Replayed authoritiesOf start log events node)
    (hstep : JustificationHandler.Step node.task
      (.notified notification now true currentTime headerAt) task)
    (hnext : node.streams.Next notification streams) :
    Replayed authoritiesOf start log
      (.handler (.notified notification now true currentTime headerAt) :: events)
      (node.handlerMoved task streams) := by
  have hheaders := (JustificationHandler.headers_step hstep nofun).trans h.headers
  have hlogged := h.logged
  obtain ⟨waiting, hsuffix, himported, hrestored⟩ := h.waiting
  have hauthority := h.authorityStream
  generalize node.streams = before at hnext hauthority hrestored
  cases hnext with
  | fromAuthority => cases hauthority
  | @fromImport _ rest authorityStream =>
    cases hreverse : waiting.reverse with
    | nil =>
      rw [hreverse] at hrestored
      cases hrestored
    | cons call later =>
      rw [hreverse] at hrestored
      obtain ⟨hcall, hrest⟩ := List.forall₂_cons.mp hrestored
      have hwaiting : waiting = later.reverse ++ [call] := by
        rw [← List.reverse_reverse waiting, hreverse, List.reverse_cons]
      rw [hwaiting, List.append_assoc, List.singleton_append] at hsuffix himported
      have hnextCall : call :: node.task.handler.finalizeCalls <:+ log :=
        (List.suffix_append _ _).trans hsuffix
      have hnumber := hknown call (hnextCall.subset List.mem_cons_self)
      rw [← h.headers] at hnumber
      have hsucceeded : node.task.succeededCalls = node.task.handler.finalizeCalls := by
        apply List.filter_eq_self.mpr
        intro earlier hearlier
        exact hlog.succeeded earlier (hnextCall.subset (List.mem_cons_of_mem _ hearlier))
      have hfinalized : task.handler.finalizeCalls = call :: node.task.handler.finalizeCalls :=
        finalized_next hlogged hsucceeded (hlog.suffix hnextCall).1 hnumber hcall hstep
      have hgenuine : JustificationHandler.Genuinely authoritiesOf node.task
          (.notified notification now true currentTime headerAt) := by
        refine ⟨?_, hcall.reads⟩
        intro header hheader
        rw [hcall.hash] at hheader
        have hsame := congrArg (Option.map Header.number) hheader
        rw [hcall.number, ← Option.some.injEq, ← hnumber]
        exact hsame.symm
      refine ⟨JustificationHandler.logged_step hlogged ⟨hgenuine, hstep⟩, hheaders, hauthority,
        later.reverse, ?_, ?_, ?_⟩
      · show later.reverse ++ task.handler.finalizeCalls <:+ log
        rw [hfinalized]
        exact hsuffix
      · show importedAlone events =
          (later.reverse ++ task.handler.finalizeCalls).map FinalizeCall.stored
        rw [hfinalized]
        exact himported
      · rw [List.reverse_reverse]
        exact hrest

private theorem replayed_handler {task : JustificationHandler.Task Hash A}
    {event : JustificationHandler.Event Hash A S} {streams : NotificationStreams Hash S}
    (hlog : FinalityLog S start.sessionPeriod authoritiesOf start.client.finalizedNumber log)
    (hknown : ∀ call ∈ log, start.client.number call.hash = some call.number)
    (h : Replayed authoritiesOf start log events node)
    (hreplaying : Replaying authoritiesOf node (.handler event))
    (hstep : JustificationHandler.Step node.task event task)
    (htakes : JustificationHandler.Takes node.streams event streams)
    (hown : ∀ headers bestNumber, event ≠ .headersImported headers bestNumber) :
    Replayed authoritiesOf start log (.handler event :: events)
      (node.handlerMoved task streams) := by
  have hheaders := (JustificationHandler.headers_step hstep hown).trans h.headers
  have hlogged := h.logged
  obtain ⟨waiting, hsuffix, himported, hrestored⟩ := h.waiting
  -- an event that takes nothing calls nothing
  have hquiet : JustificationHandler.Genuinely authoritiesOf node.task event →
      task.handler.finalizeCalls = node.task.handler.finalizeCalls → streams = node.streams →
      Replayed authoritiesOf start log (.handler event :: events)
        (node.handlerMoved task streams) := by
    intro hgenuine hcalls hstreams
    subst hstreams
    refine ⟨JustificationHandler.logged_step hlogged ⟨hgenuine, hstep⟩, hheaders,
      h.authorityStream, waiting, ?_, ?_, hrestored⟩
    · show waiting ++ task.handler.finalizeCalls <:+ log
      rw [hcalls]
      exact hsuffix
    · show importedAlone events = (waiting ++ task.handler.finalizeCalls).map FinalizeCall.stored
      rw [hcalls]
      exact himported
  have hcalls : (∀ notification now accepted currentTime headerAt,
      event ≠ .notified notification now accepted currentTime headerAt) →
      task.handler.finalizeCalls = node.task.handler.finalizeCalls := by
    intro hother
    rcases JustificationHandler.calls_step hstep with hcalls | ⟨_, _, _, _, _, _, hevent, _⟩
    · exact hcalls
    · exact absurd hevent (hother _ _ _ _ _)
  cases event with
  | notified notification now accepted currentTime headerAt =>
    cases (show accepted = true from hreplaying)
    exact replayed_taken hlog hknown h hstep htakes
  | streamEnded => exact hquiet trivial (hcalls (by simp)) htakes.2
  | sessionAuthoritiesChanged => exact hquiet hreplaying (hcalls (by simp)) htakes
  | iterate | timedOut => exact hquiet trivial (hcalls (by simp)) htakes
  | headersImported => exact absurd rfl (hown _ _)

variable [DecidableEq Hash]

private theorem replayed_step
    (hlog : FinalityLog S start.sessionPeriod authoritiesOf start.client.finalizedNumber log)
    (hknown : ∀ call ∈ log, start.client.number call.hash = some call.number)
    (h : Replayed authoritiesOf start log events node)
    (hstep : Guarded Step (Replaying authoritiesOf) node event node')
    (horder : importedAlone (event :: events) <:+ log.map FinalizeCall.stored) :
    Replayed authoritiesOf start log (event :: events) node' := by
  obtain ⟨hreplaying, hstep⟩ := hstep
  cases hstep with
  | justificationImported run => exact replayed_imported hlog h run horder
  | handler step takes own => exact replayed_handler hlog hknown h hreplaying step takes own
  | _ => exact hreplaying.elim

/-- In every run that imports a log in its order, what was imported has been finalized, or waits
on the stream. -/
theorem replayed_of_run (hstart : Follows start [] start)
    (hlists : JustificationHandler.Lists start.task.handler.sessionAuthorities authoritiesOf)
    (hlog : FinalityLog S start.sessionPeriod authoritiesOf start.client.finalizedNumber log)
    (hknown : ∀ call ∈ log, start.client.number call.hash = some call.number)
    (hrun : Run (Guarded Step (Replaying authoritiesOf)) start events node)
    (horder : importedAlone events <:+ log.map FinalizeCall.stored) :
    Replayed authoritiesOf start log events node := by
  induction hrun with
  | refl =>
    refine ⟨JustificationHandler.logged_initial hstart.loop hstart.finalizeCalls hlists, rfl,
      hstart.authorityStream, [], ?_, ?_, ?_⟩
    · rw [hstart.finalizeCalls]
      exact List.nil_suffix
    · rw [hstart.finalizeCalls]
      rfl
    · have himport : start.streams.importStream = [] :=
        congrArg Channel.messages hstart.importStream
      rw [himport]
      exact .nil
  | @tail earlier _ event _ _ last ih =>
    have hearlier : importedAlone earlier <:+ importedAlone (event :: earlier) :=
      (List.suffix_cons event earlier).filterMap _
    exact replayed_step hlog hknown (ih (hearlier.trans horder)) last horder

/-- The justification of the next call of a log, imported alone, makes the handler finalize. -/
theorem Follows.next (h : Follows start log node) (hcan : CanFinalize authoritiesOf start call)
    (hcontinues : Continues S start.sessionPeriod authoritiesOf
      (lastNumber start.client.finalizedNumber log) call) :
    ∃ events node', Run (Guarded Step (Replaying authoritiesOf)) node events node' ∧
      importedAlone events = [call.stored] ∧ Follows start (call :: log) node' := by
  obtain ⟨hsucceeded, habove, session, justification, hsession, hbelow, hbytes, hreads,
    hcomplete⟩ := hcontinues
  obtain ⟨header, hheader, hnumber⟩ := Option.map_eq_some_iff.mp hcan.known
  -- the justification comes in
  let imported : FinalityNode Hash A S Rest Aux E := { node with
    blockImport.justificationTx := ⟨[⟨justification, call.hash, call.number⟩], true⟩ }
  have himport : Step node (.justificationImported call.hash call.number call.justification)
      imported := .justificationImported (import_ready h.importStream hbytes hreads)
  -- the handler has the authorities of the session
  have hnext : sessionIdFromBlockNum (node.client.finalizedNumber + 1) node.sessionPeriod =
      .ok session := by rw [h.latest, h.sessionPeriod, hsession]
  have hlookup : node.task.handler.sessionAuthorities.lookup session =
      some (authoritiesOf session) := by
    rw [h.sessionAuthorities]
    exact hcan.authorities session (window_in_session hsession habove hbelow).1
  obtain ⟨keybox, hkeybox, hiterate⟩ := JustificationHandler.iterate_of_some hnext hlookup
    hcomplete.authorities_ne_nil
  have htop : imported.task = ⟨node.task.handler, .top⟩ := by
    show node.task = _
    rw [← h.loop]
  let waiting : JustificationHandler.Task Hash A := ⟨node.task.handler, .waiting keybox
    node.client.finalizedNumber (lastBlockOfSession session node.sessionPeriod)⟩
  have hwaiting : Step imported (.handler .iterate)
      (imported.handlerMoved waiting imported.streams) :=
    .handler (htop ▸ .iterate hiterate) rfl nofun
  -- and finalizes the block
  let finalized : JustificationHandler.Task Hash A := ⟨{ node.task.handler with
    client.finalizedHash := call.hash
    client.finalizedNumber := header.number
    finalizeCalls := ⟨call.hash, call.number, (alephEngineId, Codec.encode justification), true⟩ ::
      node.task.handler.finalizeCalls
    lastFinalizationTime := 0 }, .top⟩
  have hfinalizes : JustificationHandler.Step waiting
      (.notified ⟨justification, call.hash, call.number⟩ 0 true 0 none) finalized :=
    JustificationHandler.step_finalizes (hkeybox ▸ hcomplete) (h.latest ▸ habove)
      (h.sessionPeriod ▸ hbelow) (h.headers ▸ hheader)
  have hnotified : Step (imported.handlerMoved waiting imported.streams)
      (.handler (.notified ⟨justification, call.hash, call.number⟩ 0 true 0 none))
      ((imported.handlerMoved waiting imported.streams).handlerMoved finalized
        ⟨[], node.authorityJustificationTx.messages⟩) := .handler hfinalizes .fromImport nofun
  have hrun : ∃ events, Run (Guarded Step (Replaying authoritiesOf)) node events
      ((imported.handlerMoved waiting imported.streams).handlerMoved finalized
        ⟨[], node.authorityJustificationTx.messages⟩) ∧ importedAlone events = [call.stored] := by
    refine ⟨[_, _, _], .tail (.tail (.tail .refl ⟨?_, himport⟩) ⟨?_, hwaiting⟩)
      ⟨?_, hnotified⟩, rfl⟩
    · trivial
    · trivial
    · rfl
  obtain ⟨events, hrun, hevents⟩ := hrun
  refine ⟨events, _, hrun, hevents, rfl, ?_, hnumber, h.headers, h.sessionAuthorities,
    h.sessionPeriod, rfl, h.authorityStream⟩
  obtain ⟨callHash, callNumber, callJustification, succeeded⟩ := call
  dsimp only at hbytes hsucceeded
  rw [hbytes, hsucceeded, ← h.finalizeCalls]
  rfl

/-- A node that can finalize all blocks of a log follows it. -/
theorem follows_log (hstart : Follows start [] start)
    (hcan : ∀ call ∈ log, CanFinalize authoritiesOf start call)
    (hlog : FinalityLog S start.sessionPeriod authoritiesOf start.client.finalizedNumber log) :
    ∃ events node, Run (Guarded Step (Replaying authoritiesOf)) start events node ∧
      importedAlone events = log.map FinalizeCall.stored ∧ Follows start log node := by
  induction log with
  | nil => exact ⟨[], start, .refl, rfl, hstart⟩
  | cons call earlier ih =>
    obtain ⟨hcontinues, hearlier⟩ := hlog
    obtain ⟨before, node, hbefore, himported, hfollows⟩ :=
      ih (fun call hcall => hcan call (List.mem_cons_of_mem _ hcall)) hearlier
    obtain ⟨after, node', hafter, hnext, hfollows'⟩ :=
      hfollows.next (hcan call List.mem_cons_self) hcontinues
    refine ⟨after ++ before, node', Run.append_iff.mpr ⟨node, hbefore, hafter⟩, ?_, hfollows'⟩
    have happend : importedAlone (after ++ before) = importedAlone after ++ importedAlone before :=
      List.filterMap_append
    rw [happend, hnext, himported]
    rfl

/-- Whatever one handler has finalized, in whatever run, is a log. Another node that knows its
blocks may import the justifications stored with them one after another: at every point of
every such run it has finalized those imported so far, in their order, except for the last
ones, as many as wait on the stream. If it knows the authorities, some run finalizes all. -/
theorem finality_passed_on {source task : JustificationHandler.Task Hash A}
    {sourceEvents : List (JustificationHandler.Event Hash A S)} (htop : source.loop = .top)
    (hnone : source.handler.finalizeCalls = [])
    (hlists : JustificationHandler.Lists source.handler.sessionAuthorities authoritiesOf)
    (hrun : Run (Guarded JustificationHandler.Step (JustificationHandler.Genuinely authoritiesOf))
      source sourceEvents task)
    (hstart : Follows start [] start)
    (hknows : JustificationHandler.Lists start.task.handler.sessionAuthorities authoritiesOf)
    (hperiod : start.sessionPeriod = source.handler.chainCadence.sessionPeriod)
    (hbase : start.client.finalizedNumber = source.handler.client.finalizedNumber)
    (hknown : task.handler.client.toHeaderStore.Subset start.client.toHeaderStore) :
    FinalityLog S start.sessionPeriod authoritiesOf start.client.finalizedNumber
      task.succeededCalls ∧
    (∀ events node, Run (Guarded Step (Replaying authoritiesOf)) start events node →
      importedAlone events <:+ task.succeededCalls.map FinalizeCall.stored →
      ∃ waiting, waiting ++ node.task.handler.finalizeCalls <:+ task.succeededCalls ∧
        importedAlone events =
          (waiting ++ node.task.handler.finalizeCalls).map FinalizeCall.stored ∧
        waiting.length = node.streams.importStream.length) ∧
    ((∀ call ∈ task.succeededCalls, ∀ session,
        sessionIdFromBlockNum call.number start.sessionPeriod = .ok session →
        start.task.handler.sessionAuthorities.lookup session = some (authoritiesOf session)) →
      ∃ events node, Run (Guarded Step (Replaying authoritiesOf)) start events node ∧
        importedAlone events = task.succeededCalls.map FinalizeCall.stored ∧
        node.task.handler.finalizeCalls = task.succeededCalls ∧
        node.client.finalizedNumber = task.handler.client.finalizedNumber) := by
  have hlogged : JustificationHandler.Logged S authoritiesOf source task :=
    JustificationHandler.logged_of_run htop hnone hlists hrun
  have hnumbers : ∀ call ∈ task.succeededCalls,
      start.client.number call.hash = some call.number := by
    intro call hcall
    obtain ⟨header, hheader, hnumber⟩ := Option.map_eq_some_iff.mp (hlogged.known call hcall)
    rw [HeaderStore.number, hknown _ _ hheader, Option.map_some, hnumber]
  have hlog := hlogged.log
  rw [← hperiod, ← hbase] at hlog
  refine ⟨hlog, ?_, ?_⟩
  · intro events node hevents horder
    obtain ⟨waiting, hsuffix, himported, hrestored⟩ :=
      (replayed_of_run hstart hknows hlog hnumbers hevents horder).waiting
    refine ⟨waiting, hsuffix, himported, ?_⟩
    rw [← hrestored.length_eq, List.length_reverse]
  · intro hauthorities
    obtain ⟨events, node, hnode, himported, hfollows⟩ :=
      follows_log hstart (fun call hcall => ⟨hnumbers call hcall, hauthorities call hcall⟩) hlog
    refine ⟨events, node, hnode, himported, hfollows.finalizeCalls, ?_⟩
    rw [hfollows.latest, hlogged.latest, hbase]

end Replays
section Example
attribute [local instance] nodeIndexCodec

/-- A node that knows four blocks, and the authorities of two sessions. -/
def follower : FinalityNode ℕ PlainKey PlainSignature Unit Unit Unit where
  task := ⟨JustificationHandler.singleAuthority ⟨10⟩, .top⟩
  blockImport := ⟨.unbounded, none⟩
  imports := []
  authorityJustificationTx := .unbounded
  aggregators := ∅

theorem follower_start : Follows follower [] follower :=
  ⟨rfl, rfl, rfl, rfl, rfl, rfl, rfl, rfl⟩

private theorem singleJustification_readsBack :
    Codec.ReadsBack (JustificationHandler.singleJustification 2) := fun _ => rfl

private theorem singleAuthority_lists :
    JustificationHandler.Lists (JustificationHandler.singleAuthority ⟨10⟩).sessionAuthorities
      (fun _ => [⟨7⟩]) := by
  intro session authorities hlookup
  simp only [JustificationHandler.singleAuthority, FiniteMap.lookup_insert] at hlookup
  split_ifs at hlookup
  · exact (Option.some.inj hlookup).symm
  · exact (Option.some.inj hlookup).symm
  · cases hlookup

theorem finality_passed_on_follower : ∃ events,
    ∃ node : FinalityNode ℕ PlainKey PlainSignature Unit Unit Unit,
      importedAlone events = [(2, 1, alephEngineId,
        Codec.encode (JustificationHandler.singleJustification 2))] ∧
      Run (Guarded Step (Replaying (fun _ => [⟨7⟩]))) follower events node ∧
      node.task.handler.finalizeCalls = [⟨2, 1,
        (alephEngineId, Codec.encode (JustificationHandler.singleJustification 2)), true⟩] ∧
      node.client.finalizedNumber = 1 := by
  have hrun : ∃ task, Run (Guarded JustificationHandler.Step
        (JustificationHandler.Genuinely (fun _ => [⟨7⟩])))
      ⟨JustificationHandler.singleAuthority ⟨10⟩, .top⟩
      [.notified (JustificationHandler.singleNotification 1) 0 true 0 none, .iterate] task ∧
      task.succeededCalls = [⟨2, 1,
        (alephEngineId, Codec.encode (JustificationHandler.singleJustification 2)), true⟩] ∧
      task.handler.client = { Client.ofLine 3 0 with finalizedHash := 2, finalizedNumber := 1 } :=
    ⟨_, .tail (.tail .refl ⟨trivial, .iterate rfl⟩)
      ⟨⟨JustificationHandler.ofLine_number, singleJustification_readsBack⟩, .notified rfl⟩, rfl, rfl⟩
  obtain ⟨task, hrun, hcalls, hclient⟩ := hrun
  have hknown : task.handler.client.toHeaderStore.Subset follower.client.toHeaderStore := by
    rw [hclient]
    exact HeaderStore.Subset.refl _
  obtain ⟨_, _, hfollowed⟩ := finality_passed_on rfl rfl singleAuthority_lists hrun
    follower_start singleAuthority_lists rfl rfl hknown
  rw [hcalls] at hfollowed
  obtain ⟨events, node, hnode, himported, hsame, hnumber⟩ := hfollowed (by
    intro call hcall session hsession
    rw [List.mem_singleton] at hcall
    subst hcall
    cases hsession
    rfl)
  refine ⟨events, node, himported, hnode, hsame, ?_⟩
  rw [hnumber, hclient]

end Example
end FinalityNode
end AlephNode
