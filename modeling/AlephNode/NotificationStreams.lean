import AlephNode.ExtensionPaths
import AlephNode.JustificationVerification

/-!
# The two streams of notifications

`run` selects from the notifications that came in with blocks and those of the aggregators.
The streams keep their orders, and what is selected from them is an interleaving. A
notification that is still to come in waits on its stream; timing out does not take it.
-/
namespace AlephNode

variable {Hash A S : Type}

/-- The notifications that the streams have not yielded yet. -/
structure NotificationStreams (Hash S : Type) where
  importStream : List (JustificationNotification Hash S)
  authorityStream : List (JustificationNotification Hash S)

namespace NotificationStreams
variable {streams streams' : NotificationStreams Hash S}
  {notification : JustificationNotification Hash S}

/-- `notification_stream.next()`: the first notification of one of the streams. -/
inductive Next : NotificationStreams Hash S → JustificationNotification Hash S →
    NotificationStreams Hash S → Prop
  | fromImport {notification rest authorityStream} :
      Next ⟨notification :: rest, authorityStream⟩ notification ⟨rest, authorityStream⟩
  | fromAuthority {notification importStream rest} :
      Next ⟨importStream, notification :: rest⟩ notification ⟨importStream, rest⟩

def remaining (streams : NotificationStreams Hash S) : List (JustificationNotification Hash S) :=
  streams.importStream ++ streams.authorityStream

theorem Next.remaining_perm (h : Next streams notification streams') :
    streams.remaining.Perm (notification :: streams'.remaining) := by
  cases h with
  | fromImport => exact .refl _
  | fromAuthority => exact List.perm_middle

theorem Next.mem_remaining (h : Next streams notification streams') :
    notification ∈ streams.remaining :=
  h.remaining_perm.mem_iff.mpr List.mem_cons_self

theorem exists_next (h : streams.remaining ≠ []) :
    ∃ notification streams', Next streams notification streams' := by
  obtain ⟨importStream, authorityStream⟩ := streams
  cases importStream with
  | cons notification rest => exact ⟨notification, _, .fromImport⟩
  | nil =>
    cases authorityStream with
    | cons notification rest => exact ⟨notification, _, .fromAuthority⟩
    | nil => exact absurd rfl h

end NotificationStreams

namespace JustificationHandler
open ChainExtension

structure Consumer (Hash A S : Type) where
  task : Task Hash A
  streams : NotificationStreams Hash S

/-- What an event takes from the streams. They end when nothing is left on them. -/
def Takes (streams : NotificationStreams Hash S) : Event Hash A S → NotificationStreams Hash S → Prop
  | .notified notification _ _ _ _, streams' => streams.Next notification streams'
  | .streamEnded, streams' => streams.remaining = [] ∧ streams' = streams
  | _, streams' => streams' = streams

def Lists (sessionAuthorities : FiniteMap SessionId (List A))
    (authoritiesOf : SessionId → List A) : Prop :=
  ∀ session authorities, sessionAuthorities.lookup session = some authorities →
    authorities = authoritiesOf session

theorem Lists.insert {sessionAuthorities : FiniteMap SessionId (List A)}
    {authoritiesOf : SessionId → List A} (h : Lists sessionAuthorities authoritiesOf)
    (session : SessionId) :
    Lists (sessionAuthorities.insert session (authoritiesOf session)) authoritiesOf := by
  intro session' authorities hlookup
  rw [FiniteMap.lookup_insert] at hlookup
  split at hlookup
  · next heq =>
    rw [heq]
    exact (Option.some.inj hlookup).symm
  · exact h session' authorities hlookup

def withAuthorities (handler : JustificationHandler Hash A) (authoritiesOf : SessionId → List A)
    (session : SessionId) : JustificationHandler Hash A :=
  { handler with
    sessionAuthorities := handler.sessionAuthorities.insert session (authoritiesOf session) }

section Iterate
variable [SignatureScheme A S] {handler : JustificationHandler Hash A} {session : SessionId}
  {authorities : List A}

/-- Without the authorities of the session the iteration is repeated later. -/
theorem iterate_of_none
    (hsession : sessionIdFromBlockNum (handler.client.finalizedNumber + 1)
      handler.chainCadence.sessionPeriod = .ok session)
    (hlookup : handler.sessionAuthorities.lookup session = none) :
    handler.iterate = .ok ⟨handler, .top⟩ := by
  simp only [iterate, hsession, ok_bind, sessionKeybox, hlookup]

/-- With the authorities of the session the iteration waits for a notification. -/
theorem iterate_of_some
    (hsession : sessionIdFromBlockNum (handler.client.finalizedNumber + 1)
      handler.chainCadence.sessionPeriod = .ok session)
    (hlookup : handler.sessionAuthorities.lookup session = some authorities)
    (hsome : authorities ≠ []) :
    ∃ keybox, keybox.authorities = authorities ∧
      handler.iterate = .ok ⟨handler, .waiting keybox handler.client.finalizedNumber
        (lastBlockOfSession session handler.chainCadence.sessionPeriod)⟩ := by
  obtain ⟨keybox, hkeybox, hauthorities⟩ := sessionKeybox_of_lookup hlookup hsome
  refine ⟨keybox, hauthorities, ?_⟩
  simp only [iterate, hsession, ok_bind, hkeybox]

theorem iterate_of_empty
    (hsession : sessionIdFromBlockNum (handler.client.finalizedNumber + 1)
      handler.chainCadence.sessionPeriod = .ok session)
    (hlookup : handler.sessionAuthorities.lookup session = some []) :
    ¬Returns handler.iterate := by
  have hkeybox : handler.sessionKeybox session = .error .indexOutOfBounds := by
    simp [sessionKeybox, hlookup, KeyBox.new, Except.map]
  rintro ⟨task, htask⟩
  obtain ⟨session', hsession', hrest⟩ := bind_eq_ok.mp htask
  rw [hsession, Except.ok.injEq] at hsession'
  subst hsession'
  obtain ⟨keybox, hkeybox', _⟩ := bind_eq_ok.mp hrest
  rw [hkeybox] at hkeybox'
  cases hkeybox'

end Iterate

variable [SignatureScheme A S] [MultiKeychain S] [Codec Hash] [Codec (SignatureSet S)]

/-- A move of the task that takes notifications from the streams only. -/
def Consumes (before : Consumer Hash A S) (event : Event Hash A S) (after : Consumer Hash A S) :
    Prop :=
  Step before.task event after.task ∧ Takes before.streams event after.streams

/-- Authorities become available as they are, and `apply_finality` succeeds for a known
descendant of the finalized block. -/
def Expected (authoritiesOf : SessionId → List A) (before : Consumer Hash A S) :
    Event Hash A S → Prop
  | .notified notification _ accepted _ _ =>
    ProperAncestor before.task.handler.client.toHeaderStore
      before.task.handler.client.finalizedHash notification.hash → accepted = true
  | .sessionAuthoritiesChanged sessionAuthorities => Lists sessionAuthorities authoritiesOf
  | _ => True

abbrev ConsumerRun (authoritiesOf : SessionId → List A) :
    Consumer Hash A S → List (Event Hash A S) → Consumer Hash A S → Prop :=
  Run (Guarded Consumes (Expected authoritiesOf))

/-- The next move of the task does not panic, whichever stream it selects from. -/
def Harmless (consumer : Consumer Hash A S) : Prop :=
  match consumer.task.loop with
  | .top => Returns consumer.task.handler.iterate
  | .waiting keybox lastFinalized stopH =>
    ∀ notification streams' now accepted, consumer.streams.Next notification streams' →
      Returns (consumer.task.handler.handleJustificationNotification notification keybox
        lastFinalized stopH now accepted)
  | .ended => True

section Runs
variable {authoritiesOf : SessionId → List A} {handler : JustificationHandler Hash A}
  {streams : NotificationStreams Hash S} {session : SessionId}

theorem run_withAuthorities (hlists : Lists handler.sessionAuthorities authoritiesOf)
    (session : SessionId) : ConsumerRun authoritiesOf ⟨⟨handler, .top⟩, streams⟩
      [.sessionAuthoritiesChanged (handler.withAuthorities authoritiesOf session).sessionAuthorities]
      ⟨⟨handler.withAuthorities authoritiesOf session, .top⟩, streams⟩ :=
  .tail .refl ⟨hlists.insert session, .sessionAuthoritiesChanged _, rfl⟩

/-- When the authorities of the session are there, the task can wait with them. -/
theorem run_waiting (hlists : Lists handler.sessionAuthorities authoritiesOf)
    (hsession : sessionIdFromBlockNum (handler.client.finalizedNumber + 1)
      handler.chainCadence.sessionPeriod = .ok session)
    (hsome : authoritiesOf session ≠ []) :
    ∃ events keybox, keybox.authorities = authoritiesOf session ∧
      ConsumerRun authoritiesOf ⟨⟨handler, .top⟩, streams⟩ events
        ⟨⟨handler.withAuthorities authoritiesOf session, .waiting keybox
          handler.client.finalizedNumber
          (lastBlockOfSession session handler.chainCadence.sessionPeriod)⟩, streams⟩ := by
  let available := handler.withAuthorities authoritiesOf session
  have hlookup : available.sessionAuthorities.lookup session = some (authoritiesOf session) :=
    Finmap.lookup_insert _
  have hnext : sessionIdFromBlockNum (available.client.finalizedNumber + 1)
      available.chainCadence.sessionPeriod = .ok session := hsession
  obtain ⟨keybox, hkeybox, hiterate⟩ := iterate_of_some hnext hlookup hsome
  have hstep : Guarded Consumes (Expected authoritiesOf)
      ⟨⟨available, .top⟩, streams⟩ .iterate
      ⟨⟨available, .waiting keybox handler.client.finalizedNumber
        (lastBlockOfSession session handler.chainCadence.sessionPeriod)⟩, streams⟩ :=
    ⟨trivial, .iterate hiterate, rfl⟩
  exact ⟨_, keybox, hkeybox, (run_withAuthorities hlists session).tail hstep⟩

/-- If handling the notification returns, the waiting task can take it. -/
theorem run_taken {keybox : KeyBox A} {lastFinalized stopH : ℕ}
    {n : JustificationNotification Hash S} {streams' : NotificationStreams Hash S}
    (hreturns : ¬ReachesBeyond keybox.authorities n.hash n.justification)
    (hnext : streams.Next n streams') :
    ∃ events handler', ConsumerRun authoritiesOf
      ⟨⟨handler, .waiting keybox lastFinalized stopH⟩, streams⟩ events
      ⟨⟨handler', .top⟩, streams'⟩ := by
  obtain ⟨handler', hhandled⟩ : Returns (handler.handleJustificationNotification n keybox
      lastFinalized stopH 0 true) := handle_returns.mpr hreturns
  have hstep : Guarded Consumes (Expected authoritiesOf)
      ⟨⟨handler, .waiting keybox lastFinalized stopH⟩, streams⟩ (.notified n 0 true 0 none)
      ⟨⟨handler'.requestJustification 0 none, .top⟩, streams'⟩ :=
    ⟨fun _ => rfl, .notified hhandled, hnext⟩
  exact ⟨_, _, Run.refl.tail hstep⟩

end Runs
end JustificationHandler
end AlephNode
