import AlephNode.CodecRoundTrips
import AlephNode.NotificationSources

/-!
# Logs of finality

What a handler has finalized is a log: each entry is for a block of the session of the next
block, above all blocks before it, with a complete justification by the authorities of that
session. The runs of the handler make such logs and no others.
-/
namespace AlephNode

variable {Hash A S Rest Aux E : Type}

/-- The number that was finalized last, according to a log with the most recent call first. -/
def lastNumber (base : ℕ) (log : List (FinalizeCall Hash)) : ℕ :=
  (log.head?.map (·.number)).getD base

@[simp] theorem lastNumber_nil (base : ℕ) : lastNumber base ([] : List (FinalizeCall Hash)) = base :=
  rfl

section Logs
variable (S) [SignatureScheme A S] [MultiKeychain S] [Codec Hash] [Codec (SignatureSet S)]
  (period : SessionPeriod) (authoritiesOf : SessionId → List A)

structure Continues (last : ℕ) (call : FinalizeCall Hash) : Prop where
  succeeded : call.succeeded = true
  above : last < call.number
  justified : ∃ session, ∃ justification : AlephJustification S,
    sessionIdFromBlockNum (last + 1) period = .ok session ∧
    call.number ≤ lastBlockOfSession session period ∧
    call.justification = (alephEngineId, Codec.encode justification) ∧
    Codec.ReadsBack justification ∧ Complete (authoritiesOf session) call.hash justification

/-- The log begins after the block with the number `base`. -/
def FinalityLog (base : ℕ) : List (FinalizeCall Hash) → Prop
  | [] => True
  | call :: earlier =>
    Continues S period authoritiesOf (lastNumber base earlier) call ∧ FinalityLog base earlier

variable {S period authoritiesOf} {base : ℕ} {log earlier : List (FinalizeCall Hash)}

theorem FinalityLog.suffix (h : FinalityLog S period authoritiesOf base log)
    (hsuffix : earlier <:+ log) : FinalityLog S period authoritiesOf base earlier := by
  induction log with
  | nil =>
    rw [List.suffix_nil.mp hsuffix]
    trivial
  | cons call log ih =>
    rcases List.suffix_cons_iff.mp hsuffix with rfl | hsuffix
    · exact h
    · exact ih h.2 hsuffix

theorem FinalityLog.succeeded (h : FinalityLog S period authoritiesOf base log) :
    ∀ call ∈ log, call.succeeded = true := by
  induction log with
  | nil => simp
  | cons call log ih => exact List.forall_mem_cons.mpr ⟨h.1.succeeded, ih h.2⟩

end Logs

namespace JustificationHandler
variable [SignatureScheme A S] [MultiKeychain S] [Codec Hash] [Codec (SignatureSet S)]
  {authoritiesOf : SessionId → List A} {start task task' : Task Hash A}
  {events : List (Event Hash A S)} {event : Event Hash A S}

def Task.succeededCalls (task : Task Hash A) : List (FinalizeCall Hash) :=
  task.handler.finalizeCalls.filter (·.succeeded)

/-- The authorities that become available are those of their sessions, and notifications name
the numbers of their blocks and carry justifications that can be read back. -/
def Genuinely (authoritiesOf : SessionId → List A) (task : Task Hash A) : Event Hash A S → Prop
  | .notified notification _ _ _ _ =>
    (∀ header, task.handler.client.header notification.hash = some header →
      header.number = notification.number) ∧ Codec.ReadsBack notification.justification
  | .sessionAuthoritiesChanged sessionAuthorities => Lists sessionAuthorities authoritiesOf
  | _ => True

/-- What holds at every point of a run: the successful calls are a log, and the client agrees
with it. -/
structure Logged (S : Type) [SignatureScheme A S] [MultiKeychain S] [Codec (SignatureSet S)]
    (authoritiesOf : SessionId → List A) (start task : Task Hash A) : Prop where
  period : task.handler.chainCadence = start.handler.chainCadence
  lists : Lists task.handler.sessionAuthorities authoritiesOf
  waiting : ∀ keybox lastFinalized stopH, task.loop = .waiting keybox lastFinalized stopH →
    lastFinalized = task.handler.client.finalizedNumber ∧
    ∃ session, sessionIdFromBlockNum (lastFinalized + 1)
        start.handler.chainCadence.sessionPeriod = .ok session ∧
      stopH = lastBlockOfSession session start.handler.chainCadence.sessionPeriod ∧
      keybox.authorities = authoritiesOf session
  log : FinalityLog S start.handler.chainCadence.sessionPeriod authoritiesOf
    start.handler.client.finalizedNumber task.succeededCalls
  latest : task.handler.client.finalizedNumber =
    lastNumber start.handler.client.finalizedNumber task.succeededCalls
  known : ∀ call ∈ task.succeededCalls, task.handler.client.number call.hash = some call.number

theorem logged_initial (htop : start.loop = .top) (hnone : start.handler.finalizeCalls = [])
    (hlists : Lists start.handler.sessionAuthorities authoritiesOf) :
    Logged S authoritiesOf start start where
  period := rfl
  lists := hlists
  waiting _ _ _ h := by simp [htop] at h
  log := by simp [Task.succeededCalls, hnone, FinalityLog]
  latest := by simp [Task.succeededCalls, hnone]
  known := by simp [Task.succeededCalls, hnone]

private theorem Logged.congr (h : Logged S authoritiesOf start task)
    (hcalls : task'.succeededCalls = task.succeededCalls)
    (hcadence : task'.handler.chainCadence = task.handler.chainCadence)
    (hlists : Lists task'.handler.sessionAuthorities authoritiesOf)
    (hfinalized : task'.handler.client.finalizedNumber = task.handler.client.finalizedNumber)
    (hheaders : task.handler.client.toHeaderStore.Subset task'.handler.client.toHeaderStore)
    (hloop : ∀ keybox lastFinalized stopH, task'.loop = .waiting keybox lastFinalized stopH →
      task.loop = .waiting keybox lastFinalized stopH) : Logged S authoritiesOf start task' where
  period := by rw [hcadence, h.period]
  lists := hlists
  waiting keybox lastFinalized stopH hwaiting := by
    rw [hfinalized]
    exact h.waiting _ _ _ (hloop _ _ _ hwaiting)
  log := by
    rw [hcalls]
    exact h.log
  latest := by rw [hfinalized, hcalls, h.latest]
  known call hcall := by
    obtain ⟨header, hheader, hnumber⟩ := Option.map_eq_some_iff.mp (h.known call (hcalls ▸ hcall))
    rw [HeaderStore.number, hheaders _ _ hheader, Option.map_some, hnumber]

private theorem Logged.handled {handler handler' : JustificationHandler Hash A}
    {keybox : KeyBox A} {lastFinalized stopH now : ℕ}
    {notification : JustificationNotification Hash S}
    (h : Logged S authoritiesOf start ⟨handler, .waiting keybox lastFinalized stopH⟩)
    (hnumber : ∀ header, handler.client.header notification.hash = some header →
      header.number = notification.number)
    (hreads : Codec.ReadsBack notification.justification)
    (hhandled : Handled handler notification keybox.authorities lastFinalized stopH now handler') :
    Logged S authoritiesOf start ⟨handler', .top⟩ := by
  cases hhandled with
  | unchanged =>
    exact h.congr rfl rfl h.lists rfl (HeaderStore.Subset.refl _) (by simp)
  | failed =>
    exact h.congr (by simp [Task.succeededCalls]) rfl h.lists rfl (HeaderStore.Subset.refl _) (by simp)
  | @finalized client complete above below finalizes =>
    obtain ⟨header, hheader, hheaders, _, hfinalized⟩ := Client.finalizeBlock_eq_some finalizes
    obtain ⟨hlast, session, hsession, hstop, hauthorities⟩ := h.waiting _ _ _ rfl
    have hheaderNumber := hnumber header hheader
    have hlastNumber := hlast.trans h.latest
    refine ⟨h.period, h.lists, by simp, ?_, ?_, ?_⟩
    · refine ⟨⟨rfl, ?_, session, notification.justification, ?_, hstop ▸ below, rfl, hreads,
        hauthorities ▸ complete⟩, ?_⟩
      · exact hlastNumber ▸ above
      · exact hlastNumber ▸ hsession
      · exact h.log
    · exact hfinalized.trans hheaderNumber
    · intro call hcall
      show client.toHeaderStore.number call.hash = some call.number
      rw [hheaders]
      rcases List.mem_cons.mp hcall with rfl | hcall
      · rw [HeaderStore.number, hheader, Option.map_some, hheaderNumber]
      · exact h.known call hcall

theorem logged_step (h : Logged S authoritiesOf start task)
    (hstep : Guarded Step (Genuinely authoritiesOf) task event task') :
    Logged S authoritiesOf start task' := by
  obtain ⟨hgenuine, hstep⟩ := hstep
  cases hstep with
  | @iterate handler _ run =>
    obtain rfl | ⟨session, keybox, hsession, hlookup, rfl⟩ := iterate_cases run
    · exact h
    · have hperiod : handler.chainCadence = start.handler.chainCadence := h.period
      refine ⟨h.period, h.lists, ?_, h.log, h.latest, h.known⟩
      rintro keybox' lastFinalized stopH ⟨⟩
      exact ⟨rfl, session, hperiod ▸ hsession, by rw [hperiod], h.lists _ _ hlookup⟩
  | notified run =>
    have hhandled := h.handled hgenuine.1 hgenuine.2 (handle_cases run)
    refine hhandled.congr ?_ (by simp) (by simpa using hhandled.lists) (by simp) ?_ (by simp)
    · rw [Task.succeededCalls, requestJustification_finalizeCalls, Task.succeededCalls]
    · rw [requestJustification_client]
      exact HeaderStore.Subset.refl _
  | timedOut =>
    refine h.congr ?_ (by simp) (by simpa using h.lists) (by simp) ?_ (by simp)
    · rw [Task.succeededCalls, requestJustification_finalizeCalls, Task.succeededCalls]
    · rw [requestJustification_client]
      exact HeaderStore.Subset.refl _
  | streamEnded => exact h.congr rfl rfl h.lists rfl (HeaderStore.Subset.refl _) (by simp)
  | sessionAuthoritiesChanged =>
    exact h.congr rfl rfl hgenuine rfl (HeaderStore.Subset.refl _) (fun _ _ _ hloop => hloop)
  | headersImported grows =>
    exact h.congr rfl rfl h.lists rfl grows (fun _ _ _ hloop => hloop)

theorem logged_of_run (htop : start.loop = .top) (hnone : start.handler.finalizeCalls = [])
    (hlists : Lists start.handler.sessionAuthorities authoritiesOf)
    (hrun : Run (Guarded Step (Genuinely authoritiesOf)) start events task) :
    Logged S authoritiesOf start task :=
  hrun.invariant (Logged S authoritiesOf start) (logged_initial htop hnone hlists)
    (fun _ _ _ h hstep => logged_step h hstep)

/-- A task that waits finalizes a known block when its complete justification comes in. -/
theorem step_finalizes {handler : JustificationHandler Hash A} {keybox : KeyBox A}
    {lastFinalized stopH : ℕ} {notification : JustificationNotification Hash S}
    {header : Header Hash}
    (hcomplete : Complete keybox.authorities notification.hash notification.justification)
    (habove : lastFinalized < notification.number) (hbelow : notification.number ≤ stopH)
    (hheader : handler.client.header notification.hash = some header) :
    Step ⟨handler, .waiting keybox lastFinalized stopH⟩ (.notified notification 0 true 0 none)
      ⟨{ handler with
        client.finalizedHash := notification.hash
        client.finalizedNumber := header.number
        finalizeCalls := ⟨notification.hash, notification.number,
          (alephEngineId, Codec.encode notification.justification), true⟩ :: handler.finalizeCalls
        lastFinalizationTime := 0 }, .top⟩ := by
  have hfinalizes := Client.finalizeBlock_of_known hheader
  have hrun : handler.handleJustificationNotification notification keybox lastFinalized stopH 0
      true = .ok _ := handle_finalizes hcomplete habove hbelow hfinalizes
  exact .notified hrun

end JustificationHandler

end AlephNode
