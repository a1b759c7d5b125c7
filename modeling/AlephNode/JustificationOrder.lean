import AlephNode.NotificationStreams
import Mathlib.Data.List.MinMax

/-!
# The order of justifications

Within a session the handler finalizes the highest of the justified blocks it has consumed,
so the order does not matter. When the last block of the session is finalized, what is left
is verified with the authorities of the next session.
-/
namespace AlephNode

variable {Hash A S : Type}

/-- The block that `client.info()` reports as finalized. -/
def Client.finalizedBlock (client : Client Hash) : AlephData Hash :=
  ⟨client.finalizedHash, client.finalizedNumber⟩

def JustificationNotification.block (notification : JustificationNotification Hash S) :
    AlephData Hash :=
  ⟨notification.hash, notification.number⟩

def IsHighest (block : AlephData Hash) (blocks : List (AlephData Hash)) : Prop :=
  block ∈ blocks ∧ ∀ other ∈ blocks, other.number ≤ block.number

namespace IsHighest
variable {block start other : AlephData Hash} {blocks blocks' : List (AlephData Hash)}

theorem exists_of_cons (start : AlephData Hash) (blocks : List (AlephData Hash)) :
    ∃ block, IsHighest block (start :: blocks) := by
  cases h : (start :: blocks).argmax AlephData.number with
  | none => cases List.argmax_eq_none.mp h
  | some block =>
    exact ⟨block, List.argmax_mem h, fun other hother => List.le_of_mem_argmax hother h⟩

theorem keep (h : IsHighest block (start :: blocks)) (hle : other.number ≤ block.number) :
    IsHighest block (start :: other :: blocks) := by
  obtain ⟨hmem, hhigh⟩ := h
  simp only [IsHighest, List.mem_cons, forall_eq_or_imp] at hmem hhigh ⊢
  exact ⟨hmem.imp_right .inr, hhigh.1, hle, hhigh.2⟩

theorem replace (h : IsHighest block (start :: blocks)) (hle : block.number ≤ other.number) :
    IsHighest other (start :: other :: blocks) := by
  obtain ⟨_, hhigh⟩ := h
  simp only [IsHighest, List.mem_cons, forall_eq_or_imp] at hhigh ⊢
  exact ⟨.inr (.inl trivial), hhigh.1.trans hle, Nat.le_refl _,
    fun b hb => (hhigh.2 b hb).trans hle⟩

end IsHighest

namespace JustificationHandler
open ChainExtension

def candidates (handler : JustificationHandler Hash A)
    (notifications : List (JustificationNotification Hash S)) : List (AlephData Hash) :=
  handler.client.finalizedBlock :: notifications.map (·.block)

theorem mem_candidates {handler : JustificationHandler Hash A} {block : AlephData Hash}
    {notifications : List (JustificationNotification Hash S)} :
    block ∈ candidates handler notifications ↔
      block = handler.client.finalizedBlock ∨ ∃ n ∈ notifications, n.block = block := by
  simp [candidates]

/-- The notifications for blocks up to the end of the session, as it is computed. -/
def reachable (session : SessionId) (period : SessionPeriod)
    (notifications : List (JustificationNotification Hash S)) :
    List (JustificationNotification Hash S) :=
  notifications.filter (·.number ≤ lastBlockOfSession session period)

/-- What holds at every point of a run: the highest block among the one that was finalized in
the beginning and the reachable ones that were consumed is finalized. -/
structure Settled (authoritiesOf : SessionId → List A) (handler : JustificationHandler Hash A)
    (session : SessionId) (notifications : List (JustificationNotification Hash S))
    (consumer : Consumer Hash A S) : Prop where
  cadence : consumer.task.handler.chainCadence = handler.chainCadence
  headers : handler.client.toHeaderStore.Subset consumer.task.handler.client.toHeaderStore
  lists : Lists consumer.task.handler.sessionAuthorities authoritiesOf
  finalized : ∃ consumed, notifications.Perm (consumed ++ consumer.streams.remaining) ∧
    IsHighest consumer.task.handler.client.finalizedBlock
      (candidates handler (reachable session handler.chainCadence.sessionPeriod consumed))
  waiting : ∀ keybox lastFinalized stopH,
    consumer.task.loop = .waiting keybox lastFinalized stopH →
      lastFinalized = consumer.task.handler.client.finalizedNumber ∧
      ∃ current, sessionIdFromBlockNum (lastFinalized + 1) handler.chainCadence.sessionPeriod =
          .ok current ∧
        stopH = lastBlockOfSession current handler.chainCadence.sessionPeriod ∧
        keybox.authorities = authoritiesOf current
  ended : consumer.task.loop = .ended → consumer.streams.remaining = []

section Invariant
variable {authoritiesOf : SessionId → List A}
  {handler current current' : JustificationHandler Hash A} {session : SessionId}
  {notifications : List (JustificationNotification Hash S)} {loop loop' : Loop A}
  {streams streams' : NotificationStreams Hash S} {consumer : Consumer Hash A S}

theorem settled_initial (hlists : Lists handler.sessionAuthorities authoritiesOf)
    (hperm : notifications.Perm streams.remaining) :
    Settled authoritiesOf handler session notifications ⟨⟨handler, .top⟩, streams⟩ where
  cadence := rfl
  headers := HeaderStore.Subset.refl _
  lists := hlists
  finalized := ⟨[], hperm, by simp [IsHighest, candidates, reachable]⟩
  waiting := by simp
  ended := by simp

/-- A move that finalizes nothing and takes nothing keeps what holds. -/
theorem Settled.congr
    (h : Settled authoritiesOf handler session notifications ⟨⟨current, loop⟩, streams⟩)
    (hcadence : current'.chainCadence = current.chainCadence)
    (hheaders : current.client.toHeaderStore.Subset current'.client.toHeaderStore)
    (hfinalized : current'.client.finalizedBlock = current.client.finalizedBlock)
    (hlists : Lists current'.sessionAuthorities authoritiesOf)
    (hwaiting : ∀ keybox lastFinalized stopH, loop' = .waiting keybox lastFinalized stopH →
      loop = .waiting keybox lastFinalized stopH)
    (hended : loop' = .ended → streams.remaining = []) :
    Settled authoritiesOf handler session notifications ⟨⟨current', loop'⟩, streams⟩ where
  cadence := hcadence.trans h.cadence
  headers hash header hknown := hheaders hash header (h.headers hash header hknown)
  lists := hlists
  finalized := by
    obtain ⟨consumed, hperm, hhighest⟩ := h.finalized
    exact ⟨consumed, hperm, hfinalized ▸ hhighest⟩
  waiting keybox lastFinalized stopH hloop := by
    obtain ⟨hlast, hsession⟩ := h.waiting keybox lastFinalized stopH (hwaiting _ _ _ hloop)
    have hnumber : current'.client.finalizedNumber = current.client.finalizedNumber :=
      congrArg AlephData.number hfinalized
    exact ⟨hlast.trans hnumber.symm, hsession⟩
  ended := hended

/-- The finalized block is a candidate, and a reachable one unless it is where the run began. -/
theorem Settled.finalized_candidate (h : Settled authoritiesOf handler session notifications consumer) :
    consumer.task.handler.client.finalizedBlock = handler.client.finalizedBlock ∨
      ∃ m ∈ notifications, m.number ≤ lastBlockOfSession session handler.chainCadence.sessionPeriod ∧
        m.block = consumer.task.handler.client.finalizedBlock := by
  obtain ⟨consumed, hperm, hhighest⟩ := h.finalized
  refine (mem_candidates.mp hhighest.1).imp_right ?_
  rintro ⟨m, hm, hblock⟩
  obtain ⟨hm, hrange⟩ := List.mem_filter.mp hm
  exact ⟨m, hperm.mem_iff.mpr (List.mem_append_left _ hm), by simpa using hrange, hblock⟩

/-- When everything is consumed and nothing was out of range, the highest block is finalized. -/
theorem Settled.highest
    (hrange : ∀ n ∈ notifications,
      n.number ≤ lastBlockOfSession session handler.chainCadence.sessionPeriod)
    (h : Settled authoritiesOf handler session notifications consumer)
    (hnone : consumer.streams.remaining = []) :
    IsHighest consumer.task.handler.client.finalizedBlock (candidates handler notifications) := by
  obtain ⟨consumed, hperm, hhighest⟩ := h.finalized
  rw [hnone, List.append_nil] at hperm
  have hall : reachable session handler.chainCadence.sessionPeriod consumed = consumed := by
    refine List.filter_eq_self.mpr ?_
    intro n hn
    exact decide_eq_true (hrange n (hperm.mem_iff.mpr hn))
  rw [hall] at hhighest
  have hsame : ∀ block, block ∈ candidates handler notifications ↔
      block ∈ candidates handler consumed := by
    intro block
    simp only [mem_candidates, hperm.mem_iff]
  exact ⟨(hsame _).mpr hhighest.1, fun other hother => hhighest.2 other ((hsame other).mp hother)⟩

/-- A move that takes a notification has to finalize the highest block again. -/
theorem Settled.taken {n : JustificationNotification Hash S}
    (h : Settled authoritiesOf handler session notifications ⟨⟨current, loop⟩, streams⟩)
    (hnext : streams.Next n streams') (hcadence : current'.chainCadence = current.chainCadence)
    (hheaders : current'.client.toHeaderStore = current.client.toHeaderStore)
    (hmap : current'.sessionAuthorities = current.sessionAuthorities)
    (hfinalized : ∀ consumed,
      IsHighest current.client.finalizedBlock
        (candidates handler (reachable session handler.chainCadence.sessionPeriod consumed)) →
      IsHighest current'.client.finalizedBlock
        (candidates handler (reachable session handler.chainCadence.sessionPeriod (n :: consumed)))) :
    Settled authoritiesOf handler session notifications ⟨⟨current', .top⟩, streams'⟩ where
  cadence := hcadence.trans h.cadence
  headers := hheaders ▸ h.headers
  lists := hmap ▸ h.lists
  finalized := by
    obtain ⟨consumed, hperm, hhighest⟩ := h.finalized
    refine ⟨n :: consumed, ?_, hfinalized consumed hhighest⟩
    exact hperm.trans ((hnext.remaining_perm.append_left consumed).trans List.perm_middle)
  waiting := by simp
  ended := by simp

end Invariant

variable [SignatureScheme A S] [MultiKeychain S] [Codec Hash]

/-- Notifications with complete justifications, for known blocks of the session on one chain
that extends the finalized block. -/
structure Collected (authoritiesOf : SessionId → List A) (handler : JustificationHandler Hash A)
    (session : SessionId) (notifications : List (JustificationNotification Hash S)) : Prop where
  next_session : sessionIdFromBlockNum (handler.client.finalizedNumber + 1)
    handler.chainCadence.sessionPeriod = .ok session
  lists : Lists handler.sessionAuthorities authoritiesOf
  finalized : handler.client.number handler.client.finalizedHash =
    some handler.client.finalizedNumber
  complete : ∀ n ∈ notifications, Complete (authoritiesOf session) n.hash n.justification
  known : ∀ n ∈ notifications, handler.client.number n.hash = some n.number
  in_session : ∀ n ∈ notifications,
    sessionIdFromBlockNum n.number handler.chainCadence.sessionPeriod = .ok session
  extends_finalized : ∀ n ∈ notifications,
    ProperAncestor handler.client.toHeaderStore handler.client.finalizedHash n.hash
  on_one_chain : ∀ n ∈ notifications, ∀ m ∈ notifications,
    OnOneChain handler.client.IsParent n.hash m.hash

section Collected
variable {authoritiesOf : SessionId → List A} {handler : JustificationHandler Hash A}
  {session : SessionId} {notifications : List (JustificationNotification Hash S)}
  (hcollected : Collected authoritiesOf handler session notifications)
include hcollected

theorem Collected.height_eq {n : JustificationNotification Hash S} (hn : n ∈ notifications) :
    handler.client.height n.hash = n.number := by
  simp [HeaderStore.height, hcollected.known n hn]

/-- A notification descends from the finalized block and from every lower block of the
collection. -/
theorem Collected.descends {n : JustificationNotification Hash S} (hn : n ∈ notifications)
    {block : AlephData Hash} (hblock : block ∈ candidates handler notifications)
    (hlt : block.number < n.number) :
    ProperAncestor handler.client.toHeaderStore block.hash n.hash := by
  rcases mem_candidates.mp hblock with rfl | ⟨m, hm, rfl⟩
  · exact hcollected.extends_finalized n hn
  · have hheights : handler.client.height m.hash < handler.client.height n.hash := by
      rwa [hcollected.height_eq hm, hcollected.height_eq hn]
    have hancestor := (hcollected.on_one_chain m hm n hn).ancestor_of_rank_le
      (fun _ _ hparent => hparent.height_lt) hheights.le
    rcases Relation.reflTransGen_iff_eq_or_transGen.mp hancestor with heq | hproper
    · rw [heq] at hheights
      exact absurd hheights (Nat.lt_irrefl _)
    · exact hproper

theorem Collected.above {n : JustificationNotification Hash S} (hn : n ∈ notifications) :
    handler.client.finalizedNumber < n.number := by
  have hlt := (hcollected.extends_finalized n hn).height_lt
  rw [hcollected.height_eq hn, HeaderStore.height, hcollected.finalized] at hlt
  exact hlt

theorem Collected.highest_unique {block other : AlephData Hash}
    (hblock : IsHighest block (candidates handler notifications))
    (hother : IsHighest other (candidates handler notifications)) :
    block = other := by
  have hnumber : block.number = other.number :=
    Nat.le_antisymm (hother.2 _ hblock.1) (hblock.2 _ hother.1)
  rcases mem_candidates.mp hblock.1 with rfl | ⟨n, hn, rfl⟩ <;>
    rcases mem_candidates.mp hother.1 with rfl | ⟨m, hm, rfl⟩
  · rfl
  · exact absurd hnumber (hcollected.above hm).ne
  · exact absurd hnumber (hcollected.above hn).ne'
  · have hheights : handler.client.height n.hash = handler.client.height m.hash := by
      rwa [hcollected.height_eq hn, hcollected.height_eq hm]
    have hancestor := (hcollected.on_one_chain n hn m hm).ancestor_of_rank_le
      (fun _ _ hparent => hparent.height_lt) hheights.le
    have hhash : n.hash = m.hash :=
      hancestor.eq_of_rank_le (fun _ _ hparent => hparent.height_lt) hheights.ge
    rw [JustificationNotification.block, JustificationNotification.block, hhash]
    exact congrArg (AlephData.mk m.hash) hnumber

end Collected

section Steps
variable [Codec (SignatureSet S)] {authoritiesOf : SessionId → List A}
  {handler current current' : JustificationHandler Hash A} {session : SessionId}
  {notifications : List (JustificationNotification Hash S)} {loop loop' : Loop A}
  {streams streams' : NotificationStreams Hash S} {consumer consumer' : Consumer Hash A S}
  {event : Event Hash A S}

omit [Codec (SignatureSet S)] in
/-- A higher candidate descends from the finalized block, and the next block is in the
session. -/
theorem Settled.next_session (hcollected : Collected authoritiesOf handler session notifications)
    (h : Settled authoritiesOf handler session notifications consumer)
    {n : JustificationNotification Hash S} (hn : n ∈ notifications)
    (habove : consumer.task.handler.client.finalizedNumber < n.number) {next : SessionId}
    (hnext : sessionIdFromBlockNum (consumer.task.handler.client.finalizedNumber + 1)
      handler.chainCadence.sessionPeriod = .ok next) :
    next = session ∧ ProperAncestor consumer.task.handler.client.toHeaderStore
      consumer.task.handler.client.finalizedHash n.hash := by
  obtain ⟨_, _, hhighest⟩ := h.finalized
  have hlow := hhighest.2 _ (mem_candidates.mpr (.inl rfl))
  have hcandidate : consumer.task.handler.client.finalizedBlock ∈ candidates handler notifications := by
    refine mem_candidates.mpr (h.finalized_candidate.imp_right ?_)
    rintro ⟨m, hm, _, hblock⟩
    exact ⟨m, hm, hblock⟩
  constructor
  · exact session_between hcollected.next_session (hcollected.in_session n hn) hnext
      (Nat.succ_le_succ hlow) habove
  · exact (hcollected.descends hn hcandidate habove).mono h.headers

/-- Consuming a notification finalizes its block if it is reachable and higher than the
finalized one, and nothing otherwise. -/
theorem settled_notified (hcollected : Collected authoritiesOf handler session notifications)
    {keybox : KeyBox A} {lastFinalized stopH now : ℕ} {accepted : Bool}
    {n : JustificationNotification Hash S}
    (h : Settled authoritiesOf handler session notifications
      ⟨⟨current, .waiting keybox lastFinalized stopH⟩, streams⟩)
    (hnext : streams.Next n streams')
    (haccepted : ProperAncestor current.client.toHeaderStore current.client.finalizedHash n.hash →
      accepted = true)
    (hrun : current.handleJustificationNotification n keybox lastFinalized stopH now accepted =
      .ok current') :
    Settled authoritiesOf handler session notifications ⟨⟨current', .top⟩, streams'⟩ := by
  obtain ⟨hlast, next, hsession, hstop, hkeybox⟩ := h.waiting _ _ _ rfl
  dsimp only at hlast
  obtain ⟨consumed, hperm, _⟩ := h.finalized
  have hn : n ∈ notifications := by
    apply hperm.mem_iff.mpr
    exact List.mem_append_right _ hnext.mem_remaining
  by_cases habove : lastFinalized < n.number
  · obtain ⟨hsame, hproper⟩ := h.next_session hcollected hn (hlast ▸ habove) (hlast ▸ hsession)
    rw [hsame] at hstop hkeybox
    by_cases hrange : n.number ≤ lastBlockOfSession session handler.chainCadence.sessionPeriod
    · obtain ⟨header, hheader, hnumber⟩ := Option.map_eq_some_iff.mp (hcollected.known n hn)
      have hknown : current.client.header n.hash = some header := h.headers _ _ hheader
      have hfinalizes : current.client.finalizeBlock n.hash accepted = some { current.client with
          finalizedHash := n.hash, finalizedNumber := header.number } := by
        simp [Client.finalizeBlock, hknown, haccepted hproper]
      have hcomplete : Complete keybox.authorities n.hash n.justification :=
        hkeybox ▸ hcollected.complete n hn
      rw [handle_finalizes hcomplete habove (hstop ▸ hrange) hfinalizes] at hrun
      cases hrun
      refine h.taken hnext rfl rfl rfl ?_
      intro consumed hhighest
      rw [reachable, List.filter_cons_of_pos (by simpa using hrange), Client.finalizedBlock,
        hnumber]
      have hhigher : current.client.finalizedNumber ≤ n.number := hlast ▸ habove.le
      exact hhighest.replace hhigher
    · have hsame := (handle_cases hrun).unchanged_of_outside (fun _ => hstop ▸ hrange)
      subst hsame
      refine h.taken hnext rfl rfl rfl ?_
      intro consumed hhighest
      rwa [reachable, List.filter_cons_of_neg (by simpa using hrange)]
  · have hlower : n.number ≤ current.client.finalizedNumber := hlast ▸ Nat.not_lt.mp habove
    have hsame := (handle_cases hrun).unchanged_of_outside (fun h => absurd h habove)
    subst hsame
    refine h.taken hnext rfl rfl rfl ?_
    intro consumed hhighest
    by_cases hrange : n.number ≤ lastBlockOfSession session handler.chainCadence.sessionPeriod
    · rw [reachable, List.filter_cons_of_pos (by simpa using hrange)]
      exact hhighest.keep hlower
    · rwa [reachable, List.filter_cons_of_neg (by simpa using hrange)]

theorem settled_step (hcollected : Collected authoritiesOf handler session notifications)
    (h : Settled authoritiesOf handler session notifications consumer)
    (hexpected : Expected authoritiesOf consumer event) (hstep : Consumes consumer event consumer') :
    Settled authoritiesOf handler session notifications consumer' := by
  obtain ⟨task, streams⟩ := consumer
  obtain ⟨task', streams'⟩ := consumer'
  obtain ⟨hmove, htakes⟩ := hstep
  cases hmove with
  | @iterate current _ run =>
    cases htakes
    obtain rfl | ⟨next, keybox, hnext, hlookup, rfl⟩ := iterate_cases run
    · exact h
    · have hcadence : current.chainCadence = handler.chainCadence := h.cadence
      rw [hcadence] at hnext ⊢
      refine ⟨h.cadence, h.headers, h.lists, h.finalized, ?_, by simp⟩
      rintro keybox' lastFinalized stopH ⟨⟩
      exact ⟨rfl, next, hnext, rfl, h.lists _ _ hlookup⟩
  | notified run =>
    have hnotified := settled_notified hcollected h htakes hexpected run
    refine hnotified.congr (by simp) ?_ (by simp) ?_ (by simp) (by simp)
    · rw [requestJustification_client]
      exact HeaderStore.Subset.refl _
    · rw [requestJustification_sessionAuthorities]
      exact hnotified.lists
  | timedOut =>
    cases htakes
    refine h.congr (by simp) ?_ (by simp) ?_ (by simp) (by simp)
    · rw [requestJustification_client]
      exact HeaderStore.Subset.refl _
    · rw [requestJustification_sessionAuthorities]
      exact h.lists
  | streamEnded =>
    obtain ⟨hnone, hsame⟩ := htakes
    cases hsame
    exact h.congr rfl (HeaderStore.Subset.refl _) rfl h.lists (by simp) (fun _ => hnone)
  | sessionAuthoritiesChanged =>
    cases htakes
    exact h.congr rfl (HeaderStore.Subset.refl _) rfl hexpected (fun _ _ _ hloop => hloop) h.ended
  | headersImported grows =>
    cases htakes
    exact h.congr rfl grows rfl h.lists (fun _ _ _ hloop => hloop) h.ended

theorem settled_of_run {events : List (Event Hash A S)}
    (hcollected : Collected authoritiesOf handler session notifications)
    (h : Settled authoritiesOf handler session notifications consumer)
    (hrun : ConsumerRun authoritiesOf consumer events consumer') :
    Settled authoritiesOf handler session notifications consumer' := by
  apply hrun.invariant (Settled authoritiesOf handler session notifications) h
  rintro before event after h ⟨hexpected, hstep⟩
  exact settled_step hcollected h hexpected hstep

end Steps
/-- The end of the session is computed as it is, and when the last block has been consumed,
the others are not verified beyond the authorities of the session of the next block. -/
structure Orderly (authoritiesOf : SessionId → List A) (session : SessionId)
    (period : SessionPeriod) (notifications : List (JustificationNotification Hash S)) : Prop where
  in_range : ∀ n ∈ notifications, n.number ≤ lastBlockOfSession session period
  verifiable : ∀ last rest, notifications.Perm (last :: rest) →
    last.number = lastBlockOfSession session period →
      ∀ next, sessionIdFromBlockNum (last.number + 1) period = .ok next →
        ∀ n ∈ rest, authoritiesOf next ≠ [] ∧
          ¬ReachesBeyond (authoritiesOf next) n.hash n.justification

variable [Codec (SignatureSet S)]

/-- In every run no move panics before all is consumed, all can still be consumed, and when
it is, the block is the finalized one. -/
structure LeadsTo (authoritiesOf : SessionId → List A) (start : Consumer Hash A S)
    (block : AlephData Hash) : Prop where
  harmless : ∀ events consumer, ConsumerRun authoritiesOf start events consumer →
    consumer.streams.remaining ≠ [] → Harmless consumer
  consumes : ∀ events consumer, ConsumerRun authoritiesOf start events consumer →
    ∃ later final, ConsumerRun authoritiesOf consumer later final ∧ final.streams.remaining = []
  finalizes : ∀ events consumer, ConsumerRun authoritiesOf start events consumer →
    consumer.streams.remaining = [] → consumer.task.handler.client.finalizedBlock = block

section Orderly
variable {authoritiesOf : SessionId → List A} {handler : JustificationHandler Hash A}
  {session next : SessionId} {notifications : List (JustificationNotification Hash S)}
  {streams : NotificationStreams Hash S} {consumer : Consumer Hash A S}
  (hcollected : Collected authoritiesOf handler session notifications)
include hcollected

omit [Codec (SignatureSet S)] in
/-- What is left can be verified with the authorities of the session of the next block. -/
theorem Settled.verifiable
    (horderly : Orderly authoritiesOf session handler.chainCadence.sessionPeriod notifications)
    (h : Settled authoritiesOf handler session notifications consumer)
    {n : JustificationNotification Hash S} (hn : n ∈ consumer.streams.remaining)
    (hnext : sessionIdFromBlockNum (consumer.task.handler.client.finalizedNumber + 1)
      handler.chainCadence.sessionPeriod = .ok next) :
    authoritiesOf next ≠ [] ∧ ¬ReachesBeyond (authoritiesOf next) n.hash n.justification := by
  obtain ⟨consumed, hperm, hhighest⟩ := h.finalized
  have hcomplete := hcollected.complete n (hperm.mem_iff.mpr (List.mem_append_right _ hn))
  by_cases hsame : next = session
  · rw [hsame]
    exact ⟨hcomplete.authorities_ne_nil, hcomplete.not_reachesBeyond⟩
  · rcases mem_candidates.mp hhighest.1 with hstart | ⟨m, hm, hblock⟩
    · have hnumber : consumer.task.handler.client.finalizedNumber = handler.client.finalizedNumber :=
        congrArg AlephData.number hstart
      rw [hnumber, hcollected.next_session] at hnext
      exact absurd (Except.ok.inj hnext).symm hsame
    · -- the session has changed, so the finalized block is its last
      obtain ⟨hm, hrange⟩ := List.mem_filter.mp hm
      have hnumber : m.number = consumer.task.handler.client.finalizedNumber :=
        congrArg AlephData.number hblock
      rw [← hnumber] at hnext
      have hlast : m.number = lastBlockOfSession session handler.chainCadence.sessionPeriod := by
        by_contra hne
        have habove := hcollected.above (hperm.mem_iff.mpr (List.mem_append_left _ hm))
        have hle : m.number ≤ lastBlockOfSession session handler.chainCadence.sessionPeriod := by
          simpa using hrange
        obtain ⟨hin, _⟩ := window_in_session hcollected.next_session
          (Nat.lt_succ_of_lt habove) (Nat.lt_of_le_of_ne hle hne)
        rw [hnext] at hin
        exact hsame (Except.ok.inj hin)
      obtain ⟨before, after, rfl⟩ := List.append_of_mem hm
      exact horderly.verifiable m _ (hperm.trans (List.perm_middle.append_right _)) hlast next hnext
        n (List.mem_append_right _ hn)

omit [Codec (SignatureSet S)] in
/-- At the top of the loop the session of the next block has authorities that can verify what
is left. -/
theorem Settled.verifiable_next
    (horderly : Orderly authoritiesOf session handler.chainCadence.sessionPeriod notifications)
    (h : Settled authoritiesOf handler session notifications consumer) :
    ∃ next, sessionIdFromBlockNum (consumer.task.handler.client.finalizedNumber + 1)
        consumer.task.handler.chainCadence.sessionPeriod = .ok next ∧
      ∀ n ∈ consumer.streams.remaining, authoritiesOf next ≠ [] ∧
        ¬ReachesBeyond (authoritiesOf next) n.hash n.justification := by
  obtain ⟨hp, _⟩ := sessionIdFromBlockNum_ok.mp hcollected.next_session
  obtain ⟨next, hnext⟩ :=
    sessionIdFromBlockNum_returns hp (consumer.task.handler.client.finalizedNumber + 1)
  rw [h.cadence]
  exact ⟨next, hnext, fun n hn => h.verifiable hcollected horderly hn hnext⟩

omit [Codec (SignatureSet S)] in
theorem Settled.verifiable_waiting
    (horderly : Orderly authoritiesOf session handler.chainCadence.sessionPeriod notifications)
    (h : Settled authoritiesOf handler session notifications consumer)
    {keybox : KeyBox A} {lastFinalized stopH : ℕ}
    (hloop : consumer.task.loop = .waiting keybox lastFinalized stopH)
    {n : JustificationNotification Hash S} (hn : n ∈ consumer.streams.remaining) :
    ¬ReachesBeyond keybox.authorities n.hash n.justification := by
  obtain ⟨hlast, next, hnext, _, hkeybox⟩ := h.waiting _ _ _ hloop
  obtain ⟨_, hwithin⟩ := h.verifiable hcollected horderly hn (hlast ▸ hnext)
  rwa [hkeybox]

theorem Settled.harmless
    (horderly : Orderly authoritiesOf session handler.chainCadence.sessionPeriod notifications)
    (h : Settled authoritiesOf handler session notifications consumer)
    (hleft : consumer.streams.remaining ≠ []) : Harmless consumer := by
  obtain ⟨⟨current, loop⟩, streams⟩ := consumer
  cases loop with
  | top =>
    obtain ⟨n, hn⟩ := List.exists_mem_of_ne_nil _ hleft
    obtain ⟨next, hnext, hverifiable⟩ := h.verifiable_next hcollected horderly
    cases hlookup : current.sessionAuthorities.lookup next with
    | none => exact ⟨_, iterate_of_none hnext hlookup⟩
    | some authorities =>
      have hsome : authorities ≠ [] := h.lists _ _ hlookup ▸ (hverifiable n hn).1
      obtain ⟨_, _, hiterate⟩ := iterate_of_some hnext hlookup hsome
      exact ⟨_, hiterate⟩
  | waiting keybox lastFinalized stopH =>
    intro n streams' now accepted htaken
    apply handle_returns.mpr
    exact h.verifiable_waiting hcollected horderly rfl htaken.mem_remaining
  | ended => trivial

theorem Settled.consumes_next
    (horderly : Orderly authoritiesOf session handler.chainCadence.sessionPeriod notifications)
    (h : Settled authoritiesOf handler session notifications consumer)
    (hleft : consumer.streams.remaining ≠ []) :
    ∃ events after, ConsumerRun authoritiesOf consumer events after ∧
      after.streams.remaining.length < consumer.streams.remaining.length := by
  obtain ⟨⟨current, loop⟩, streams⟩ := consumer
  obtain ⟨n, streams', htaken⟩ := NotificationStreams.exists_next hleft
  have hshorter : streams'.remaining.length < streams.remaining.length := by
    rw [htaken.remaining_perm.length_eq]
    exact Nat.lt_succ_self _
  cases loop with
  | top =>
    obtain ⟨next, hnext, hverifiable⟩ := h.verifiable_next hcollected horderly
    obtain ⟨hsome, hwithin⟩ := hverifiable n htaken.mem_remaining
    obtain ⟨events, keybox, hkeybox, hwaiting⟩ := run_waiting h.lists hnext hsome
    obtain ⟨later, current', htop⟩ := run_taken (hkeybox ▸ hwithin) htaken
    exact ⟨_, _, Run.append_iff.mpr ⟨_, hwaiting, htop⟩, hshorter⟩
  | waiting keybox lastFinalized stopH =>
    have hwithin := h.verifiable_waiting hcollected horderly rfl htaken.mem_remaining
    obtain ⟨events, current', htop⟩ := run_taken hwithin htaken
    exact ⟨_, _, htop, hshorter⟩
  | ended => exact absurd (h.ended rfl) hleft

theorem Settled.consumes
    (horderly : Orderly authoritiesOf session handler.chainCadence.sessionPeriod notifications)
    (h : Settled authoritiesOf handler session notifications consumer) :
    ∃ later final, ConsumerRun authoritiesOf consumer later final ∧
      final.streams.remaining = [] := by
  induction hlength : consumer.streams.remaining.length using Nat.strong_induction_on
    generalizing consumer with
  | _ length ih =>
    by_cases hleft : consumer.streams.remaining = []
    · exact ⟨[], consumer, .refl, hleft⟩
    · obtain ⟨events, after, hrun, hshorter⟩ := h.consumes_next hcollected horderly hleft
      obtain ⟨later, final, hfinal, hnone⟩ :=
        ih _ (hlength ▸ hshorter) (settled_of_run hcollected h hrun) rfl
      exact ⟨later ++ events, final, Run.append_iff.mpr ⟨after, hrun, hfinal⟩, hnone⟩

omit hcollected in
/-- The orders in which every run leads to the block tell what can be verified: in such a run
the next notification is verified with the authorities of the session of the next block. -/
theorem LeadsTo.verifiable {start : Consumer Hash A S} {current : JustificationHandler Hash A}
    {events : List (Event Hash A S)} {block : AlephData Hash}
    (hleads : LeadsTo authoritiesOf start block)
    (hrun : ConsumerRun authoritiesOf start events ⟨⟨current, .top⟩, streams⟩)
    (hlists : Lists current.sessionAuthorities authoritiesOf)
    (hnext : sessionIdFromBlockNum (current.client.finalizedNumber + 1)
      current.chainCadence.sessionPeriod = .ok next)
    {n : JustificationNotification Hash S} {streams' : NotificationStreams Hash S}
    (htaken : streams.Next n streams') :
    authoritiesOf next ≠ [] ∧ ¬ReachesBeyond (authoritiesOf next) n.hash n.justification := by
  have hleft : streams.remaining ≠ [] := List.ne_nil_of_mem htaken.mem_remaining
  have hsome : authoritiesOf next ≠ [] := by
    intro hempty
    have hharmless := hleads.harmless _ _
      (Run.append_iff.mpr ⟨_, hrun, run_withAuthorities hlists next⟩) hleft
    let available := current.withAuthorities authoritiesOf next
    have hlookup : available.sessionAuthorities.lookup next = some [] := by
      rw [← hempty]
      exact Finmap.lookup_insert _
    have hsession : sessionIdFromBlockNum (available.client.finalizedNumber + 1)
        available.chainCadence.sessionPeriod = .ok next := hnext
    exact iterate_of_empty hsession hlookup hharmless
  obtain ⟨later, keybox, hkeybox, hwaiting⟩ := run_waiting hlists hnext hsome
  have hharmless := hleads.harmless _ _ (Run.append_iff.mpr ⟨_, hrun, hwaiting⟩) hleft
  have hreturns := handle_returns.mp (hharmless n streams' 0 true htaken)
  exact ⟨hsome, hkeybox ▸ hreturns⟩

/-- In the order in which the last block of the session is first, the others are verified with
the authorities of the session of the next block. -/
theorem verifiable_of_leadsTo {block : AlephData Hash} {last n : JustificationNotification Hash S}
    {rest : List (JustificationNotification Hash S)}
    (hleads : ∀ streams, notifications.Perm streams.remaining →
      LeadsTo authoritiesOf ⟨⟨handler, .top⟩, streams⟩ block)
    (hperm : notifications.Perm (last :: rest))
    (hlast : last.number = lastBlockOfSession session handler.chainCadence.sessionPeriod)
    (hnext : sessionIdFromBlockNum (last.number + 1) handler.chainCadence.sessionPeriod = .ok next)
    (hn : n ∈ rest) :
    authoritiesOf next ≠ [] ∧ ¬ReachesBeyond (authoritiesOf next) n.hash n.justification := by
  obtain ⟨before, after, rfl⟩ := List.append_of_mem hn
  let others : NotificationStreams Hash S := ⟨n :: (before ++ after), []⟩
  let streams : NotificationStreams Hash S := ⟨last :: n :: (before ++ after), []⟩
  have hothers : notifications.Perm (last :: others.remaining) := by
    refine hperm.trans (List.Perm.cons last ?_)
    rw [NotificationStreams.remaining, List.append_nil]
    exact List.perm_middle
  have hall : notifications.Perm streams.remaining := hothers
  have hfirst := hleads streams hall
  have htaken : streams.Next last others := .fromImport
  obtain ⟨hsome, hwithin⟩ :=
    hfirst.verifiable .refl hcollected.lists hcollected.next_session htaken
  obtain ⟨events, keybox, hkeybox, hwaiting⟩ :=
    run_waiting hcollected.lists hcollected.next_session hsome
  obtain ⟨later, current, htop⟩ := run_taken (hkeybox ▸ hwithin) htaken
  have hrun := Run.append_iff.mpr ⟨_, hwaiting, htop⟩
  have hsettled := settled_of_run hcollected (settled_initial hcollected.lists hall) hrun
  -- the one notification that was consumed is the finalized block
  obtain ⟨consumed, hconsumed, hhighest⟩ := hsettled.finalized
  have hone : consumed = [last] := by
    have hsame := hconsumed.symm.trans hothers
    exact List.perm_singleton.mp ((List.perm_append_right_iff others.remaining).mp hsame)
  rw [hone] at hhighest
  have hreachable : last ∈ reachable session handler.chainCadence.sessionPeriod [last] := by
    simp [reachable, hlast]
  have hnumber : current.client.finalizedNumber = last.number := by
    apply Nat.le_antisymm
    · rcases mem_candidates.mp hhighest.1 with hstart | ⟨m, hm, hblock⟩
      · have habove := hcollected.above (hperm.mem_iff.mpr List.mem_cons_self)
        have hsame : current.client.finalizedNumber = handler.client.finalizedNumber :=
          congrArg AlephData.number hstart
        exact hsame ▸ habove.le
      · have hsame := List.mem_singleton.mp (List.mem_of_mem_filter hm)
        exact (congrArg AlephData.number (hsame ▸ hblock)).ge
    · exact hhighest.2 last.block (mem_candidates.mpr (.inr ⟨last, hreachable, rfl⟩))
  have hcadence : current.chainCadence = handler.chainCadence := hsettled.cadence
  rw [← hnumber, ← hcadence] at hnext
  exact hfirst.verifiable hrun hsettled.lists hnext .fromImport

/-- Every order and every split of the notifications leads to the same highest block, exactly
if the end of the session is computed as it is and what may be left when the last block of
the session is finalized can be verified with the authorities of the next session. -/
theorem order_irrelevant_iff :
    (∃ block, IsHighest block (candidates handler notifications) ∧
      ∀ streams, notifications.Perm streams.remaining →
        LeadsTo authoritiesOf ⟨⟨handler, .top⟩, streams⟩ block) ↔
      Orderly authoritiesOf session handler.chainCadence.sessionPeriod notifications := by
  constructor
  · intro hleads
    obtain ⟨block, hblock, hleads⟩ := hleads
    constructor
    · intro n hn
      let streams : NotificationStreams Hash S := ⟨notifications, []⟩
      have hperm : notifications.Perm streams.remaining := by
        rw [NotificationStreams.remaining, List.append_nil]
      obtain ⟨later, final, hrun, hnone⟩ := (hleads streams hperm).consumes _ _ .refl
      have hfinal := (hleads streams hperm).finalizes _ _ hrun hnone
      have hsettled := settled_of_run hcollected (settled_initial hcollected.lists hperm) hrun
      have hhigh : n.number ≤ block.number :=
        hblock.2 n.block (mem_candidates.mpr (.inr ⟨n, hn, rfl⟩))
      rcases hsettled.finalized_candidate with hstart | ⟨m, _, hrange, hm⟩
      · have habove := hcollected.above hn
        rw [← hfinal, hstart] at hhigh
        exact absurd habove (Nat.not_lt.mpr hhigh)
      · rw [← hfinal, ← hm] at hhigh
        exact hhigh.trans hrange
    · intro last rest hperm hlast next hnext n hn
      exact verifiable_of_leadsTo hcollected hleads hperm hlast hnext hn
  · intro horderly
    obtain ⟨block, hblock⟩ := IsHighest.exists_of_cons handler.client.finalizedBlock
      (notifications.map (·.block))
    refine ⟨block, hblock, ?_⟩
    intro streams hperm
    have hsettled : ∀ events consumer,
        ConsumerRun authoritiesOf ⟨⟨handler, .top⟩, streams⟩ events consumer →
          Settled authoritiesOf handler session notifications consumer := by
      intro events consumer hrun
      exact settled_of_run hcollected (settled_initial hcollected.lists hperm) hrun
    constructor
    · intro events consumer hrun hleft
      exact (hsettled _ _ hrun).harmless hcollected horderly hleft
    · intro events consumer hrun
      exact (hsettled _ _ hrun).consumes hcollected horderly
    · intro events consumer hrun hnone
      exact hcollected.highest_unique ((hsettled _ _ hrun).highest horderly.in_range hnone) hblock

end Orderly
section Example
attribute [local instance] nodeIndexCodec

def pairFirst (later : List PlainKey) (session : SessionId) : List PlainKey :=
  if session = ⟨0⟩ then [⟨7⟩, ⟨8⟩] else later

def pairStart : JustificationHandler ℕ PlainKey :=
  { singleAuthority ⟨3⟩ with sessionAuthorities := ∅ }

def pairNotification (number : ℕ) : JustificationNotification ℕ PlainSignature :=
  ⟨⟨[some ⟨⟨0⟩, ⟨7, Codec.encode (number + 1)⟩⟩, some ⟨⟨1⟩, ⟨8, Codec.encode (number + 1)⟩⟩]⟩,
    number + 1, number⟩

theorem pairNotification_present {number : ℕ} {e : NodeIndex × Signature PlainSignature} :
    e ∈ (pairNotification number).justification.signature.present ↔
      e = (⟨0⟩, ⟨⟨0⟩, ⟨7, Codec.encode (number + 1)⟩⟩) ∨
        e = (⟨1⟩, ⟨⟨1⟩, ⟨8, Codec.encode (number + 1)⟩⟩) := by
  simp [pairNotification, SignatureSet.present]

theorem collected_pair (later : List PlainKey) : Collected (pairFirst later) pairStart ⟨0⟩
    [pairNotification 1, pairNotification 2] := by
  have hfirst : pairStart.client.IsParent 1 2 := ⟨_, _, rfl, rfl, rfl⟩
  have hsecond : pairStart.client.IsParent 2 3 := ⟨_, _, rfl, rfl, rfl⟩
  have hcomplete : ∀ number, Complete (pairFirst later ⟨0⟩) (number + 1)
      (pairNotification number).justification := by
    intro number
    have hmany : MultiKeychain.quorum PlainSignature 2 ≤ 2 := by decide
    refine ⟨hmany, ?_⟩
    intro e he
    rcases pairNotification_present.mp he with rfl | rfl
    · exact ⟨⟨7⟩, rfl, decide_eq_true rfl⟩
    · exact ⟨⟨8⟩, rfl, decide_eq_true rfl⟩
  constructor
  · rfl
  · intro session authorities hlookup
    cases hlookup
  · rfl
  · exact List.forall_mem_cons.mpr ⟨hcomplete 1, List.forall_mem_singleton.mpr (hcomplete 2)⟩
  · exact List.forall_mem_cons.mpr ⟨rfl, List.forall_mem_singleton.mpr rfl⟩
  · exact List.forall_mem_cons.mpr ⟨rfl, List.forall_mem_singleton.mpr rfl⟩
  · exact List.forall_mem_cons.mpr ⟨.single hfirst,
      List.forall_mem_singleton.mpr (.tail (.single hfirst) hsecond)⟩
  · simp only [List.mem_cons, List.not_mem_nil, or_false, forall_eq_or_imp, forall_eq]
    exact ⟨⟨.inl .refl, .inl (.single hsecond)⟩, .inr (.single hsecond), .inl .refl⟩

/-- Two other authorities follow. -/
theorem order_irrelevant_iff_pair :
    ∃ block, IsHighest block (candidates pairStart [pairNotification 1, pairNotification 2]) ∧
      ∀ streams, [pairNotification 1, pairNotification 2].Perm streams.remaining →
        LeadsTo (pairFirst [⟨9⟩, ⟨10⟩]) ⟨⟨pairStart, .top⟩, streams⟩ block := by
  refine (order_irrelevant_iff (collected_pair _)).mpr ⟨?_, ?_⟩
  · simp only [List.mem_cons, List.not_mem_nil, or_false, forall_eq_or_imp, forall_eq]
    decide
  · intro last rest hperm hlast next hnext n hn
    have hone : sessionIdFromBlockNum (lastBlockOfSession ⟨0⟩ ⟨3⟩ + 1) ⟨3⟩ = .ok ⟨1⟩ := by decide
    rw [hlast] at hnext
    obtain rfl : next = ⟨1⟩ := Except.ok.inj (hnext.symm.trans hone)
    refine ⟨by decide, ?_⟩
    rintro ⟨_, ⟨e, he, hout⟩, _⟩
    have hmem : n ∈ [pairNotification 1, pairNotification 2] :=
      hperm.mem_iff.mpr (List.mem_cons_of_mem _ hn)
    obtain ⟨number, rfl⟩ : ∃ number, n = pairNotification number := by
      rcases List.mem_pair.mp hmem with rfl | rfl
      · exact ⟨1, rfl⟩
      · exact ⟨2, rfl⟩
    rcases pairNotification_present.mp he with rfl | rfl
    · have hout : 2 ≤ 0 := hout
      exact absurd hout (by decide)
    · have hout : 2 ≤ 1 := hout
      exact absurd hout (by decide)

/-- One of the two stays alone: if the last block of session 0 is consumed first, verifying
the other notification panics. -/
theorem shrinking_session_panics :
    Collected (pairFirst [⟨7⟩]) pairStart ⟨0⟩ [pairNotification 1, pairNotification 2] ∧
      ¬∃ block, IsHighest block (candidates pairStart [pairNotification 1, pairNotification 2]) ∧
        ∀ streams, [pairNotification 1, pairNotification 2].Perm streams.remaining →
          LeadsTo (pairFirst [⟨7⟩]) ⟨⟨pairStart, .top⟩, streams⟩ block := by
  refine ⟨collected_pair _, ?_⟩
  rintro ⟨block, _, hleads⟩
  have hnext : sessionIdFromBlockNum 3 ⟨3⟩ = .ok ⟨1⟩ := rfl
  obtain ⟨_, hwithin⟩ := verifiable_of_leadsTo (collected_pair _) hleads (.swap _ _ [])
    rfl hnext List.mem_cons_self
  apply hwithin
  refine ⟨by decide, ⟨(⟨1⟩, ⟨⟨1⟩, ⟨8, Codec.encode 2⟩⟩), ?_, by decide⟩, ?_⟩
  · exact pairNotification_present.mpr (.inr rfl)
  · intro e he hin
    rcases pairNotification_present.mp he with rfl | rfl
    · exact ⟨⟨7⟩, rfl, decide_eq_true rfl⟩
    · exact absurd hin (by decide)

end Example
end JustificationHandler
end AlephNode
