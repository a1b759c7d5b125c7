import AlephNode.JustificationRuns
import AlephNode.SessionBounds

/-!
# Requests for justifications

After each notification, and after each second without one, the handler may ask the network
for the justification of the last block of the session. It does so rarely: not soon after a
block was finalized, and less soon after the last request. The clock does not go backwards,
and it is read when a notification is handled and when a request is considered.
-/
namespace AlephNode

/-- In a span of time there are few elements of a list whose elements are far apart. -/
theorem length_le_of_apart {times : List ℕ} {gap low span : ℕ}
    (hapart : times.Pairwise (fun later earlier => earlier + gap < later))
    (hspan : ∀ time ∈ times, low ≤ time ∧ time ≤ low + span) :
    times.length ≤ span / (gap + 1) + 1 := by
  induction times generalizing span with
  | nil => exact Nat.zero_le _
  | cons time times ih =>
    obtain ⟨hlater, hapart⟩ := List.pairwise_cons.mp hapart
    obtain ⟨hfirst, hrest⟩ := List.forall_mem_cons.mp hspan
    cases times with
    | nil =>
      rw [List.length_singleton]
      exact Nat.le_add_left _ _
    | cons before others =>
      have hbefore := hlater before List.mem_cons_self
      have hlow := (hrest before List.mem_cons_self).1
      have hshorter : ∀ earlier ∈ before :: others,
          low ≤ earlier ∧ earlier ≤ low + (span - (gap + 1)) := by
        intro earlier hearlier
        have hlt := hlater earlier hearlier
        exact ⟨(hrest earlier hearlier).1, by omega⟩
      have hlength := ih hapart hshorter
      have hsplit : span / (gap + 1) = (span - (gap + 1)) / (gap + 1) + 1 :=
        Nat.div_eq_sub_div (Nat.succ_pos gap) (by omega)
      rw [List.length_cons, hsplit]
      exact Nat.succ_le_succ hlength

inductive HandlerAct (Hash : Type) where
  | finalized (time number : ℕ)
  | requested (time : ℕ) (hash : Hash) (number : ℕ)

namespace HandlerAct
variable {Hash : Type}

def time : HandlerAct Hash → ℕ
  | .finalized time _ => time
  | .requested time _ _ => time

def requestTime : HandlerAct Hash → Option ℕ
  | .finalized _ _ => none
  | .requested time _ _ => some time

def finalizedNumber : HandlerAct Hash → Option ℕ
  | .finalized _ number => some number
  | .requested _ _ _ => none

def Allowed (cadence : ℕ) : HandlerAct Hash → HandlerAct Hash → Prop
  | .requested time _ _, .requested earlier _ _ => earlier + 2 * cadence < time
  | .requested time _ _, .finalized earlier _ => earlier + cadence < time
  | .finalized time _, earlier => earlier.time ≤ time

end HandlerAct

namespace JustificationHandler
variable {Hash A S : Type} [SignatureScheme A S] [MultiKeychain S] [Codec Hash]
  [Codec (SignatureSet S)]

/-- The task with the clock and a record of what it has done, the most recent first. -/
structure Clocked (Hash A : Type) where
  task : Task Hash A
  now : ℕ
  acts : List (HandlerAct Hash)

def finalizationsSince (before after : JustificationHandler Hash A) (time : ℕ) :
    List (HandlerAct Hash) :=
  ((after.finalizeCalls.take (after.finalizeCalls.length - before.finalizeCalls.length)).filter
    (·.succeeded)).map (fun call => .finalized time call.number)

def requestsSince (before after : JustificationHandler Hash A) (time : ℕ) :
    List (HandlerAct Hash) :=
  (after.requested.take (after.requested.length - before.requested.length)).map
    (fun request => .requested time request.1 request.2)

def actsOf (before after : JustificationHandler Hash A) : Event Hash A S → List (HandlerAct Hash)
  | .notified _ now _ currentTime _ =>
    requestsSince before after currentTime ++ finalizationsSince before after now
  | .timedOut currentTime _ => requestsSince before after currentTime
  | _ => []

/-- The clock does not go backwards between its readings. -/
def Forwards (now : ℕ) : Event Hash A S → ℕ → Prop
  | .notified _ handledAt _ currentTime _, now' =>
    now ≤ handledAt ∧ handledAt ≤ currentTime ∧ now' = currentTime
  | .timedOut currentTime _, now' => now ≤ currentTime ∧ now' = currentTime
  | _, now' => now ≤ now'

/-- The client answers with a block of the number that it was asked for, and knows it. -/
def AnswersTruly (task : Task Hash A) (headerAt : Option (Header Hash)) : Prop :=
  ∀ header keybox lastFinalized stopH, headerAt = some header →
    task.loop = .waiting keybox lastFinalized stopH →
    header.number = stopH ∧ task.handler.client.header header.hash = some header

/-- Notifications name the numbers of their blocks, and the client answers truly. -/
def Truthful (task : Task Hash A) (event : Event Hash A S) : Prop :=
  NumbersMatch task event ∧
    match event with
    | .notified _ _ _ _ headerAt => AnswersTruly task headerAt
    | .timedOut _ headerAt => AnswersTruly task headerAt
    | _ => True

structure ClockedStep (clocked : Clocked Hash A) (event : Event Hash A S)
    (clocked' : Clocked Hash A) : Prop where
  step : Step clocked.task event clocked'.task
  truthful : Truthful clocked.task event
  forwards : Forwards clocked.now event clocked'.now
  acts : clocked'.acts = actsOf clocked.task.handler clocked'.task.handler event ++ clocked.acts

/-- The numbers of the finalized blocks after these acts, the most recent first. -/
def finalizedAfter (start : JustificationHandler Hash A) (acts : List (HandlerAct Hash)) : List ℕ :=
  acts.filterMap (·.finalizedNumber) ++ [start.client.finalizedNumber]

/-- After these acts the block is the last one of the session that followed a finalized block.
Unless the numbers run out, no block above it is finalized. -/
def Due (start : JustificationHandler Hash A) (acts : List (HandlerAct Hash)) (number : ℕ) : Prop :=
  ∃ finalized ∈ finalizedAfter start acts, ∃ session,
    sessionIdFromBlockNum (finalized + 1) start.chainCadence.sessionPeriod = .ok session ∧
      number = lastBlockOfSession session start.chainCadence.sessionPeriod ∧
      (finalized + start.chainCadence.sessionPeriod.val.toNat < 2 ^ 32 →
        ∀ other ∈ finalizedAfter start acts, other ≤ number)

/-- An act that the handler remembers the time of, or the time of a later one. -/
def Remembered (start handler : JustificationHandler Hash A) : HandlerAct Hash → Prop
  | .finalized time _ => time ≤ handler.lastFinalizationTime
  | .requested time hash number =>
    start.lastRequestTime + 2 * start.chainCadence.justificationsCadence < time ∧
      start.lastFinalizationTime + start.chainCadence.justificationsCadence < time ∧
      time ≤ handler.lastRequestTime ∧ handler.client.number hash = some number

/-- What the handler has done is paced, and so is what it remembers of it. -/
structure Paced (start handler : JustificationHandler Hash A) (now : ℕ)
    (acts : List (HandlerAct Hash)) : Prop where
  cadence : handler.chainCadence = start.chainCadence
  request : start.lastRequestTime ≤ handler.lastRequestTime ∧ handler.lastRequestTime ≤ now
  finalization : start.lastFinalizationTime ≤ handler.lastFinalizationTime ∧
    handler.lastFinalizationTime ≤ now
  numbers : acts.filterMap (·.finalizedNumber) = finalizedNumbers handler.finalizeCalls
  remembered : ∀ act ∈ acts, Remembered start handler act
  paced : acts.Pairwise (HandlerAct.Allowed start.chainCadence.justificationsCadence)
  due : ∀ time hash number earlier, .requested time hash number :: earlier <:+ acts →
    Due start earlier number

section Steps
variable {start handler handler' : JustificationHandler Hash A} {now now' : ℕ}
  {acts : List (HandlerAct Hash)} {act : HandlerAct Hash}

omit [Codec Hash]

theorem Remembered.time_le (h : Remembered start handler act)
    (hrequest : handler.lastRequestTime ≤ now) (hfinalization : handler.lastFinalizationTime ≤ now) :
    act.time ≤ now := by
  cases act with
  | finalized time number => exact le_trans h hfinalization
  | requested time hash number => exact h.2.2.1.trans hrequest

theorem Remembered.mono (h : Remembered start handler act)
    (hrequest : handler.lastRequestTime ≤ handler'.lastRequestTime)
    (hfinalization : handler.lastFinalizationTime ≤ handler'.lastFinalizationTime)
    (hheaders : handler.client.toHeaderStore.Subset handler'.client.toHeaderStore) :
    Remembered start handler' act := by
  cases act with
  | finalized time number => exact le_trans h hfinalization
  | requested time hash number =>
    obtain ⟨hfirst, hfirst', hle, hknown⟩ := h
    obtain ⟨header, hheader, hnumber⟩ := Option.map_eq_some_iff.mp hknown
    refine ⟨hfirst, hfirst', hle.trans hrequest, ?_⟩
    rw [HeaderStore.number, hheaders _ _ hheader, Option.map_some, hnumber]

/-- Time passes, and the handler changes only in what the record does not depend on. -/
theorem Paced.passes (h : Paced start handler now acts) (hnow : now ≤ now')
    (hcadence : handler'.chainCadence = handler.chainCadence)
    (hrequest : handler'.lastRequestTime = handler.lastRequestTime)
    (hfinalization : handler'.lastFinalizationTime = handler.lastFinalizationTime)
    (hcalls : finalizedNumbers handler'.finalizeCalls = finalizedNumbers handler.finalizeCalls)
    (hheaders : handler.client.toHeaderStore.Subset handler'.client.toHeaderStore) :
    Paced start handler' now' acts := by
  refine ⟨hcadence.trans h.cadence, ?_, ?_, h.numbers.trans hcalls.symm, ?_, h.paced, h.due⟩
  · rw [hrequest]
    exact ⟨h.request.1, h.request.2.trans hnow⟩
  · rw [hfinalization]
    exact ⟨h.finalization.1, h.finalization.2.trans hnow⟩
  · intro act hact
    exact (h.remembered act hact).mono hrequest.ge hfinalization.ge hheaders

theorem Paced.finalizes (h : Paced start handler now acts) (hnow : now ≤ now')
    {client : Client Hash} {call : FinalizeCall Hash} (hsucceeded : call.succeeded = true)
    (hheaders : client.toHeaderStore = handler.client.toHeaderStore) :
    Paced start { handler with
      client := client
      finalizeCalls := call :: handler.finalizeCalls
      lastFinalizationTime := now' } now' (.finalized now' call.number :: acts) := by
  have hsubset : handler.client.toHeaderStore.Subset client.toHeaderStore := by
    rw [hheaders]
    exact HeaderStore.Subset.refl _
  refine ⟨h.cadence, ⟨h.request.1, h.request.2.trans hnow⟩,
    ⟨h.finalization.1.trans (h.finalization.2.trans hnow), Nat.le_refl _⟩, ?_, ?_, ?_, ?_⟩
  · show call.number :: acts.filterMap (·.finalizedNumber) = _
    rw [h.numbers]
    simp [finalizedNumbers, hsucceeded]
  · intro act hact
    rcases List.mem_cons.mp hact with rfl | hact
    · exact Nat.le_refl _
    · exact (h.remembered act hact).mono (Nat.le_refl _) (h.finalization.2.trans hnow) hsubset
  · refine List.pairwise_cons.mpr ⟨?_, h.paced⟩
    intro earlier hearlier
    exact ((h.remembered earlier hearlier).time_le h.request.2 h.finalization.2).trans hnow
  · intro time hash number earlier hsuffix
    rcases List.suffix_cons_iff.mp hsuffix with hsame | hsuffix
    · cases hsame
    · exact h.due _ _ _ _ hsuffix

/-- A request is made only long after the last finalization and the last request. -/
theorem request_cases (handler : JustificationHandler Hash A) (currentTime : ℕ)
    (headerAt : Option (Header Hash)) :
    handler.requestJustification currentTime headerAt = handler ∨
      ∃ header, headerAt = some header ∧
        handler.lastFinalizationTime + handler.chainCadence.justificationsCadence < currentTime ∧
        handler.lastRequestTime + 2 * handler.chainCadence.justificationsCadence < currentTime ∧
        handler.requestJustification currentTime headerAt = { handler with
          lastRequestTime := currentTime
          requested := (header.hash, header.number) :: handler.requested } := by
  cases headerAt with
  | none => exact .inl (ite_self _)
  | some header =>
    by_cases hlate : currentTime - handler.lastFinalizationTime >
          handler.chainCadence.justificationsCadence ∧
        currentTime - handler.lastRequestTime > 2 * handler.chainCadence.justificationsCadence
    · refine .inr ⟨header, rfl, by omega, by omega, ?_⟩
      simp only [requestJustification, if_pos hlate]
    · left
      simp only [requestJustification, if_neg hlate]

/-- The handler considers a request for a block that is due. -/
theorem Paced.requests (h : Paced start handler now acts) (hnow : now ≤ now')
    {headerAt : Option (Header Hash)}
    (hdue : ∀ header, headerAt = some header →
      handler.client.number header.hash = some header.number ∧ Due start acts header.number) :
    Paced start (handler.requestJustification now' headerAt) now'
      (requestsSince handler (handler.requestJustification now' headerAt) now' ++ acts) := by
  rcases request_cases handler now' headerAt with
    hsame | ⟨header, hheader, hfinalization, hrequest, hmade⟩
  · have hnone : requestsSince handler handler now' = [] := by simp [requestsSince]
    rw [hsame, hnone, List.nil_append]
    exact h.passes hnow rfl rfl rfl rfl (HeaderStore.Subset.refl _)
  · have hone : requestsSince handler { handler with
        lastRequestTime := now'
        requested := (header.hash, header.number) :: handler.requested } now' =
        [.requested now' header.hash header.number] := by
      simp [requestsSince]
    rw [hmade, hone, List.singleton_append]
    rw [h.cadence] at hfinalization hrequest
    have hlatest := h.request.2.trans hnow
    have hfirst := h.request.1
    have hfirst' := h.finalization.1
    obtain ⟨hknown, hdue⟩ := hdue header hheader
    refine ⟨h.cadence, ⟨hfirst.trans hlatest, Nat.le_refl _⟩,
      ⟨hfirst', h.finalization.2.trans hnow⟩, ?_, ?_, ?_, ?_⟩
    · simpa [HandlerAct.finalizedNumber] using h.numbers
    · intro act hact
      rcases List.mem_cons.mp hact with rfl | hact
      · exact ⟨by omega, by omega, Nat.le_refl _, hknown⟩
      · exact (h.remembered act hact).mono hlatest (Nat.le_refl _) (HeaderStore.Subset.refl _)
    · refine List.pairwise_cons.mpr ⟨?_, h.paced⟩
      intro earlier hearlier
      have hremembered := h.remembered earlier hearlier
      cases earlier with
      | finalized time number =>
        have hle : time ≤ handler.lastFinalizationTime := hremembered
        show time + start.chainCadence.justificationsCadence < now'
        omega
      | requested time hash number =>
        have hle := hremembered.2.2.1
        show time + 2 * start.chainCadence.justificationsCadence < now'
        omega
    · intro time hash number earlier hsuffix
      rcases List.suffix_cons_iff.mp hsuffix with hsame | hsuffix
      · cases hsame
        exact hdue
      · exact h.due _ _ _ _ hsuffix

end Steps

/-- A notification is handled while a block is due, and the block stays due. -/
theorem Paced.handled {start handler handler' : JustificationHandler Hash A} {now handledAt : ℕ}
    {acts : List (HandlerAct Hash)} {notification : JustificationNotification Hash S}
    {authorities : List A} {lastFinalized stopH : ℕ}
    (h : Paced start handler now acts) (hnow : now ≤ handledAt) (hdue : Due start acts stopH)
    (hhandled : Handled handler notification authorities lastFinalized stopH handledAt handler') :
    Paced start handler' handledAt (finalizationsSince handler handler' handledAt ++ acts) ∧
      Due start (finalizationsSince handler handler' handledAt ++ acts) stopH ∧
      handler'.requested = handler.requested ∧
      handler.client.toHeaderStore.Subset handler'.client.toHeaderStore := by
  cases hhandled with
  | unchanged =>
    have hnone : finalizationsSince handler handler handledAt = [] := by simp [finalizationsSince]
    rw [hnone, List.nil_append]
    exact ⟨h.passes hnow rfl rfl rfl rfl (HeaderStore.Subset.refl _), hdue, rfl,
      HeaderStore.Subset.refl _⟩
  | @finalized client complete above below finalizes =>
    obtain ⟨_, _, hheaders, _, _⟩ := Client.finalizeBlock_eq_some finalizes
    have hone : finalizationsSince handler { handler with
        client := client
        finalizeCalls := ⟨notification.hash, notification.number,
          (alephEngineId, Codec.encode notification.justification), true⟩ :: handler.finalizeCalls
        lastFinalizationTime := handledAt } handledAt =
        [.finalized handledAt notification.number] := by
      simp [finalizationsSince]
    rw [hone, List.singleton_append]
    refine ⟨h.finalizes hnow rfl hheaders, ?_, rfl, ?_⟩
    · obtain ⟨finalized, hfinalized, session, hsession, hstop, hle⟩ := hdue
      refine ⟨finalized, List.mem_cons_of_mem _ hfinalized, session, hsession, hstop, ?_⟩
      exact fun hfit => List.forall_mem_cons.mpr ⟨below, hle hfit⟩
    · show handler.client.toHeaderStore.Subset client.toHeaderStore
      rw [hheaders]
      exact HeaderStore.Subset.refl _
  | failed complete above below =>
    have hnone : finalizationsSince handler { handler with
        finalizeCalls := ⟨notification.hash, notification.number,
          (alephEngineId, Codec.encode notification.justification), false⟩ ::
            handler.finalizeCalls } handledAt = [] := by
      simp [finalizationsSince]
    rw [hnone, List.nil_append]
    exact ⟨h.passes hnow rfl rfl rfl rfl (HeaderStore.Subset.refl _), hdue, rfl,
      HeaderStore.Subset.refl _⟩

section Runs
variable {start clocked clocked' : Clocked Hash A} {events : List (Event Hash A S)}
  {event : Event Hash A S}

/-- The last block of the session that is waited for is due. -/
theorem Consistent.due (h : Consistent start.task events clocked.task)
    (hpaced : Paced start.task.handler clocked.task.handler clocked.now clocked.acts)
    {keybox : KeyBox A} {lastFinalized stopH : ℕ}
    (hwaiting : clocked.task.loop = .waiting keybox lastFinalized stopH) :
    Due start.task.handler clocked.acts stopH := by
  obtain ⟨hlast, session, hsession, hstop, _⟩ := h.waiting keybox lastFinalized stopH hwaiting
  obtain ⟨rest, hrest⟩ := List.head?_eq_some_iff.mp h.latest
  have hincreasing := h.increasing
  rw [Due, finalizedAfter, hpaced.numbers, hrest, ← hlast]
  rw [hrest, ← hlast] at hincreasing
  refine ⟨lastFinalized, List.mem_cons_self, session, hsession, hstop, ?_⟩
  intro hfit finalized hfinalized
  have hbelow : lastFinalized < stopH := hstop ▸ lt_lastBlockOfSession hsession hfit
  rcases List.mem_cons.mp hfinalized with rfl | hearlier
  · exact hbelow.le
  · have hlt := (List.pairwise_cons.mp hincreasing).1 finalized hearlier
    omega

theorem paced_step (hconsistent : Consistent start.task events clocked.task)
    (h : Paced start.task.handler clocked.task.handler clocked.now clocked.acts)
    (hstep : ClockedStep clocked event clocked') :
    Paced start.task.handler clocked'.task.handler clocked'.now clocked'.acts := by
  obtain ⟨step, ⟨_, htruly⟩, hforwards, hacts⟩ := hstep
  obtain ⟨task, now, acts⟩ := clocked
  obtain ⟨task', now', acts'⟩ := clocked'
  dsimp only at step htruly hforwards hacts h ⊢
  subst hacts
  cases step with
  | @iterate handler _ run =>
    have hhandler : task'.handler = handler := by
      rcases iterate_cases run with rfl | ⟨_, _, _, _, rfl⟩
      · rfl
      · rfl
    rw [hhandler]
    exact h.passes hforwards rfl rfl rfl rfl (HeaderStore.Subset.refl _)
  | @notified handler handler' keybox lastFinalized stopH notification handledAt accepted _
      headerAt run =>
    obtain ⟨hhandled, hcurrent, rfl⟩ := hforwards
    obtain ⟨hpaced, hdue, hrequested, hheaders⟩ :=
      h.handled hhandled (hconsistent.due h rfl) (handle_cases run)
    have hacts : actsOf handler (handler'.requestJustification now' headerAt)
          (.notified notification handledAt accepted now' headerAt) ++ acts =
        requestsSince handler' (handler'.requestJustification now' headerAt) now' ++
          (finalizationsSince handler handler' handledAt ++ acts) := by
      simp only [actsOf, requestsSince, finalizationsSince, hrequested,
        requestJustification_finalizeCalls, List.append_assoc]
    rw [hacts]
    apply hpaced.requests hcurrent
    intro header hheader
    obtain ⟨hnumber, hknown⟩ := htruly header keybox lastFinalized stopH hheader rfl
    rw [hnumber]
    refine ⟨?_, hdue⟩
    rw [HeaderStore.number, hheaders _ _ hknown, Option.map_some, hnumber]
  | @timedOut handler keybox lastFinalized stopH currentTime headerAt =>
    obtain ⟨hcurrent, rfl⟩ := hforwards
    apply h.requests hcurrent
    intro header hheader
    obtain ⟨hnumber, hknown⟩ := htruly header keybox lastFinalized stopH hheader rfl
    rw [hnumber]
    refine ⟨?_, hconsistent.due h rfl⟩
    rw [HeaderStore.number, hknown, Option.map_some, hnumber]
  | streamEnded => exact h.passes hforwards rfl rfl rfl rfl (HeaderStore.Subset.refl _)
  | sessionAuthoritiesChanged =>
    exact h.passes hforwards rfl rfl rfl rfl (HeaderStore.Subset.refl _)
  | headersImported grows => exact h.passes hforwards rfl rfl rfl rfl grows

theorem ClockedStep.intro {task task' : Task Hash A} {now now' : ℕ} {acts : List (HandlerAct Hash)}
    (step : Step task event task') (truthful : Truthful task event)
    (forwards : Forwards now event now') :
    ClockedStep ⟨task, now, acts⟩ event
      ⟨task', now', actsOf task.handler task'.handler event ++ acts⟩ :=
  ⟨step, truthful, forwards, rfl⟩

/-- A clocked run is a run whose notifications name the numbers of their blocks. -/
theorem ClockedStep.matching (h : ClockedStep clocked event clocked') :
    Guarded Step NumbersMatch clocked.task event clocked'.task :=
  ⟨h.truthful.1, h.step⟩

theorem paced_of_run (htop : start.task.loop = .top)
    (hcalls : start.task.handler.finalizeCalls = [])
    (hrequest : start.task.handler.lastRequestTime ≤ start.now)
    (hfinalization : start.task.handler.lastFinalizationTime ≤ start.now)
    (hacts : start.acts = []) (hrun : Run ClockedStep start events clocked) :
    MatchingRun start.task events clocked.task ∧
      Paced start.task.handler clocked.task.handler clocked.now clocked.acts := by
  induction hrun with
  | refl =>
    rw [hacts]
    refine ⟨.refl, rfl, ⟨Nat.le_refl _, hrequest⟩, ⟨Nat.le_refl _, hfinalization⟩, ?_, ?_, .nil, ?_⟩
    · simp [hcalls, finalizedNumbers]
    · simp
    · simp
  | tail _ last ih =>
    obtain ⟨hmatching, hpaced⟩ := ih
    have hconsistent := consistent_of_run htop hcalls hmatching
    exact ⟨hmatching.tail last.matching, paced_step hconsistent hpaced last⟩

end Runs

/-- In every run with truthful answers and a clock that does not go backwards, a request comes
more than one cadence after each finalization before it and more than two cadences after each
request before it; it is for the last block of the session that followed a block finalized
by then, when no block above was finalized; and in any span of time there are only so many. -/
theorem requests_paced {start clocked : Clocked Hash A} {events : List (Event Hash A S)}
    (htop : start.task.loop = .top) (hcalls : start.task.handler.finalizeCalls = [])
    (hrequest : start.task.handler.lastRequestTime ≤ start.now)
    (hfinalization : start.task.handler.lastFinalizationTime ≤ start.now)
    (hacts : start.acts = []) (hrun : Run ClockedStep start events clocked) :
    clocked.acts.Pairwise
        (HandlerAct.Allowed start.task.handler.chainCadence.justificationsCadence) ∧
      (∀ time hash number earlier, .requested time hash number :: earlier <:+ clocked.acts →
        start.task.handler.lastRequestTime +
            2 * start.task.handler.chainCadence.justificationsCadence < time ∧
          start.task.handler.lastFinalizationTime +
            start.task.handler.chainCadence.justificationsCadence < time ∧
          clocked.task.handler.client.number hash = some number ∧
          Due start.task.handler earlier number) ∧
      ∀ low span, ((clocked.acts.filterMap (·.requestTime)).filter
          (fun time => low ≤ time ∧ time ≤ low + span)).length ≤
        span / (2 * start.task.handler.chainCadence.justificationsCadence + 1) + 1 := by
  obtain ⟨_, hpaced⟩ := paced_of_run htop hcalls hrequest hfinalization hacts hrun
  refine ⟨hpaced.paced, ?_, ?_⟩
  · intro time hash number earlier hsuffix
    have hmem := hsuffix.subset List.mem_cons_self
    obtain ⟨hfirst, hfirst', _, hknown⟩ := hpaced.remembered _ hmem
    exact ⟨hfirst, hfirst', hknown, hpaced.due _ _ _ _ hsuffix⟩
  · intro low span
    have hapart : ((clocked.acts.filterMap (·.requestTime)).filter
        (fun time => low ≤ time ∧ time ≤ low + span)).Pairwise (fun later earlier =>
          earlier + 2 * start.task.handler.chainCadence.justificationsCadence < later) := by
      apply List.Pairwise.filter
      refine List.pairwise_filterMap.mpr (hpaced.paced.imp ?_)
      rintro (_ | ⟨time, _, _⟩) (_ | ⟨earlier, _, _⟩) hallowed _ hlater _ hearlier
      · cases hlater
      · cases hlater
      · cases hearlier
      · cases hlater
        cases hearlier
        exact hallowed
    apply length_le_of_apart hapart
    intro time htime
    simpa using (List.mem_filter.mp htime).2

section Example
attribute [local instance] nodeIndexCodec

/-- With a cadence of a second, a block is finalized and the last block of its session is asked
for two seconds later. -/
theorem requests_paced_two : ∃ clocked : Clocked ℕ PlainKey,
    clocked.acts = [.requested 2600 3 2, .finalized 500 1] ∧
      clocked.acts.Pairwise (HandlerAct.Allowed 1000) := by
  have hrun : ∃ clocked, Run ClockedStep ⟨⟨singleAuthority ⟨3⟩, .top⟩, 0, []⟩
      [.timedOut 2600 (some ⟨3, 2, 2⟩), .iterate,
        .notified (singleNotification 1) 500 true 500 none, .iterate] clocked ∧
      clocked.acts = [.requested 2600 3 2, .finalized 500 1] := by
    refine ⟨_, .tail (.tail (.tail (.tail .refl
      (.intro (.iterate rfl) ⟨trivial, trivial⟩ (Nat.le_refl 0)))
      (.intro (.notified rfl) ⟨ofLine_number, by simp [AnswersTruly]⟩
        ⟨Nat.zero_le 500, Nat.le_refl 500, rfl⟩))
      (.intro (.iterate rfl) ⟨trivial, trivial⟩ (Nat.le_refl 500)))
      (.intro .timedOut ⟨trivial, ?_⟩ ⟨by decide, rfl⟩), rfl⟩
    rintro _ _ _ _ ⟨⟩ ⟨⟩
    exact ⟨rfl, rfl⟩
  obtain ⟨clocked, hrun, hacts⟩ := hrun
  have hpaced := requests_paced rfl rfl (Nat.le_refl _) (Nat.le_refl _) rfl hrun
  exact ⟨clocked, hacts, hpaced.1⟩

end Example
end JustificationHandler
end AlephNode
