import AlephNode.SessionOrder
import Mathlib.Order.Interval.Finset.Nat

/-!
# Pruned sessions

The party removes the authorities of old sessions every ten sessions. The sessions that it
keeps lie in a window below the current one. What it removes lies below a session that it
has left, whose last block is finalized; so nothing is removed that is still needed for
finality.
-/
namespace AlephNode.ConsensusParty

variable {Hash A : Type} [DecidableEq A]

/-- The sessions of a map lie below `upper`, and above what was pruned before `current`. -/
def Window (sessionAuthorities : FiniteMap SessionId (List A)) (current upper : ℕ) : Prop :=
  ∀ s ∈ sessionAuthorities.keys,
    10 * ((current - 1) / 10) - 10 ≤ s.val.toNat ∧ s.val.toNat < upper

/-- Which sessions the map holds at a point of the party. -/
def WindowAt (sessionAuthorities : FiniteMap SessionId (List A)) : Position A → Prop
  | .started => sessionAuthorities = ∅
  | .next currId => Window sessionAuthorities currId.toNat currId.toNat
  | .reading sessionId => Window sessionAuthorities sessionId.val.toNat sessionId.val.toNat
  | .early sessionId _ => Window sessionAuthorities sessionId.val.toNat (sessionId.val.toNat + 1)
  | .attempting sessionId _ _ =>
    Window sessionAuthorities sessionId.val.toNat (sessionId.val.toNat + 1)
  | .joining sessionId _ => Window sessionAuthorities sessionId.val.toNat (sessionId.val.toNat + 1)
  | .waiting sessionId _ => Window sessionAuthorities sessionId.val.toNat (sessionId.val.toNat + 1)
  | .left sessionId => Window sessionAuthorities sessionId.val.toNat (sessionId.val.toNat + 1)
  | .panicked _ => ∃ current, Window sessionAuthorities current (current + 1)

def BegunAt : Position A → SessionId → Prop
  | .reading sessionId, s => s = sessionId
  | .early sessionId _, s => s = sessionId
  | .attempting sessionId _ _, s => s = sessionId
  | .joining sessionId _, s => s = sessionId
  | .waiting sessionId _, s => s = sessionId
  | .left sessionId, s => s = sessionId
  | _, _ => False

/-- The last block of a session is computed without overflow. -/
def Fits (sessionId : SessionId) (period : SessionPeriod) : Prop :=
  (sessionId.val.toNat + 1) * period.val.toNat < 2 ^ 32

/-- The runtime does not fail to answer for a finalized block, and the last block of a
session that begins is computed without overflow. -/
def Undisturbed (task : Task Hash A) (event : Event Hash A) : Prop :=
  (∀ block, event = .nextSessionAuthorities block .failed →
    ¬block ≤ task.party.client.finalizedNumber) ∧
  ∀ sessionId, event = .sessionBegun sessionId → Fits sessionId task.party.sessionPeriod

/-- What is known of the session map in an undisturbed run. -/
structure Pruned (task : Task Hash A) : Prop where
  period : 0 < task.party.sessionPeriod.val.toNat
  order : InOrder task
  fits : ∀ s, BegunAt task.position s → Fits s task.party.sessionPeriod
  window : WindowAt task.party.sessionAuthorities task.position

/-- The next block to be finalized lies beyond the session. -/
def Over (task : Task Hash A) (s : SessionId) : Prop :=
  s.val.toNat < min (task.party.client.finalizedNumber + 1) (2 ^ 32 - 1) /
    task.party.sessionPeriod.val.toNat

section Windows
variable {sessionAuthorities : FiniteMap SessionId (List A)} {current upper : ℕ}

omit [DecidableEq A] in
theorem Window.mono {current' upper' : ℕ} (h : Window sessionAuthorities current upper)
    (hlow : 10 * ((current' - 1) / 10) - 10 ≤ 10 * ((current - 1) / 10) - 10)
    (hupper : upper ≤ upper') : Window sessionAuthorities current' upper' := by
  intro s hs
  obtain ⟨hlow', hupper'⟩ := h s hs
  exact ⟨hlow.trans hlow', hupper'.trans_le hupper⟩

omit [DecidableEq A] in
theorem Window.insert {sessionId : SessionId} {authorities : List A}
    (h : Window sessionAuthorities sessionId.val.toNat sessionId.val.toNat) :
    Window (sessionAuthorities.insert sessionId authorities) sessionId.val.toNat
      (sessionId.val.toNat + 1) := by
  intro s hs
  rw [Finmap.mem_keys, Finmap.mem_insert] at hs
  obtain rfl | hs := hs
  · exact ⟨by omega, Nat.lt_succ_self _⟩
  · obtain ⟨hlow, hupper⟩ := h s (Finmap.mem_keys.mpr hs)
    exact ⟨hlow, Nat.lt_succ_of_lt hupper⟩

omit [DecidableEq A] in
/-- A window that ends with the current session holds 21 sessions at most. -/
theorem Window.card_le (h : Window sessionAuthorities current (current + 1)) :
    sessionAuthorities.keys.card ≤ 21 := by
  have hmaps : ∀ s ∈ sessionAuthorities.keys, s.val.toNat ∈
      Finset.Ico (10 * ((current - 1) / 10) - 10) (current + 1) := by
    intro s hs
    exact Finset.mem_Ico.mpr (h s hs)
  have hinjective : Set.InjOn (fun s : SessionId => s.val.toNat) sessionAuthorities.keys :=
    fun _ _ _ _ heq => session_ext heq
  have hcard := Finset.card_le_card_of_injOn _ hmaps hinjective
  rw [Nat.card_Ico] at hcard
  omega

omit [DecidableEq A] in
theorem WindowAt.card_le {position : Position A} (h : WindowAt sessionAuthorities position) :
    sessionAuthorities.keys.card ≤ 21 := by
  cases position with
  | started =>
    rw [show sessionAuthorities = ∅ from h]
    simp
  | next | reading =>
    exact (Window.mono h (Nat.le_refl _) (Nat.le_succ _)).card_le
  | panicked =>
    obtain ⟨_, hwindow⟩ := h
    exact hwindow.card_le
  | _ => exact Window.card_le h

end Windows

section Steps
variable {task task' : Task Hash A} {event : Event Hash A} {party : ConsensusParty Hash A}
  {s : SessionId} {authorities : List A}

/-- The sessions stay as long, and only its own growth changes the client. -/
theorem step_frame (hstep : Step task event task') :
    task'.party.sessionPeriod = task.party.sessionPeriod ∧
      (task'.party.client = task.party.client ∨
        event = .clientGrown task'.party.client ∧
          task.party.client.Grows task'.party.client) := by
  cases hstep with
  | started =>
    unfold start
    split <;> exact ⟨rfl, .inl rfl⟩
  | @genesisAuthorities _ _ answer => cases answer <;> exact ⟨rfl, .inl rfl⟩
  | @nextSessionAuthorities _ _ _ answer => cases answer <;> exact ⟨rfl, .inl rfl⟩
  | bestChecked =>
    unfold checkBest
    split <;> exact ⟨rfl, .inl rfl⟩
  | attempted =>
    unfold attemptSkip
    split
    · exact ⟨rfl, .inl rfl⟩
    · split <;> exact ⟨rfl, .inl rfl⟩
  | joined =>
    unfold join
    split
    · exact ⟨rfl, .inl rfl⟩
    · split <;> exact ⟨rfl, .inl rfl⟩
  | polled =>
    unfold poll
    split
    · split <;> exact ⟨rfl, .inl rfl⟩
    · exact ⟨rfl, .inl rfl⟩
  | sessionLeft =>
    unfold leave
    dsimp only
    split <;> exact ⟨rfl, .inl rfl⟩
  | clientGrown grows => exact ⟨rfl, .inr ⟨rfl, grows⟩⟩
  | sessionBegun => exact ⟨rfl, .inl rfl⟩

theorem finalizedNumber_le (hstep : Step task event task') :
    task.party.client.finalizedNumber ≤ task'.party.client.finalizedNumber := by
  obtain hsame | ⟨_, hgrows⟩ := (step_frame hstep).2
  · rw [hsame]
  · exact hgrows.finalized

/-- A step inserts the session that is read, or prunes after every tenth session. -/
theorem map_cases (hstep : Step task event task') :
    task'.party.sessionAuthorities = task.party.sessionAuthorities ∨
    (∃ sessionId authorities, task.position = .reading sessionId ∧
      task'.party.sessionAuthorities =
        task.party.sessionAuthorities.insert sessionId authorities) ∨
    ∃ sessionId, task.position = .left sessionId ∧ 10 ≤ sessionId.val ∧
      task'.party.sessionAuthorities =
        (task.party.pruneSessionData ⟨sessionId.val - 10⟩).sessionAuthorities := by
  cases hstep with
  | started =>
    unfold start
    split <;> exact .inl rfl
  | @genesisAuthorities _ sessionId answer =>
    cases answer with
    | none => exact .inl rfl
    | some authorities => exact .inr (.inl ⟨sessionId, authorities, rfl, rfl⟩)
  | @nextSessionAuthorities _ sessionId _ answer =>
    cases answer with
    | failed | refused => exact .inl rfl
    | answered authorities => exact .inr (.inl ⟨sessionId, authorities, rfl, rfl⟩)
  | bestChecked =>
    unfold checkBest
    split <;> exact .inl rfl
  | attempted =>
    unfold attemptSkip
    split
    · exact .inl rfl
    · split <;> exact .inl rfl
  | joined =>
    unfold join
    split
    · exact .inl rfl
    · split <;> exact .inl rfl
  | polled =>
    unfold poll
    split
    · split <;> exact .inl rfl
    · exact .inl rfl
  | @sessionLeft _ sessionId =>
    unfold leave
    dsimp only
    split
    · next hprunes => exact .inr (.inr ⟨sessionId, rfl, hprunes.1, rfl⟩)
    · exact .inl rfl
  | clientGrown => exact .inl rfl
  | sessionBegun => exact .inl rfl

/-- In an undisturbed run the runtime answers in time: a session is read when the session
before it is finalized. -/
theorem Undisturbed.answersInTime (h : Undisturbed task event) (horder : InOrder task)
    (hstep : Step task event task') : AnswersInTime task event := by
  intro sessionId block hposition hevent
  cases hstep with
  | @nextSessionAuthorities party sessionId' block answer later lastPrev =>
    cases hposition
    cases hevent
    have hprev : MustBeOver (.reading sessionId : Position A) ⟨sessionId.val - 1⟩ :=
      session_pred_toNat later
    have hfinalized := horder _ hprev
    dsimp only at hfinalized
    rw [← lastPrev] at hfinalized
    exact absurd hfinalized (h.1 block rfl)
  | _ => cases hevent

omit [DecidableEq A] in
theorem over_of_finalized (hfits : Fits s task.party.sessionPeriod)
    (hperiod : 0 < task.party.sessionPeriod.val.toNat)
    (hfinalized : lastBlockOfSession s task.party.sessionPeriod ≤
      task.party.client.finalizedNumber) : Over task s := by
  unfold Fits at hfits
  have hpos : 0 < (s.val.toNat + 1) * task.party.sessionPeriod.val.toNat :=
    Nat.mul_pos (Nat.succ_pos _) hperiod
  rw [lastBlockOfSession_eq hperiod hfits.le, finalNumber] at hfinalized
  have hle : (s.val.toNat + 1) * task.party.sessionPeriod.val.toNat ≤
      min (task.party.client.finalizedNumber + 1) (2 ^ 32 - 1) := by omega
  exact (Nat.le_div_iff_mul_le hperiod).mpr hle

omit [DecidableEq A] in
theorem Over.finalized (h : Over task s) :
    lastBlockOfSession s task.party.sessionPeriod ≤ task.party.client.finalizedNumber := by
  unfold Over at h
  have hperiod : 0 < task.party.sessionPeriod.val.toNat := by
    apply Nat.pos_of_ne_zero
    intro hzero
    rw [hzero, Nat.div_zero] at h
    exact Nat.not_lt_zero _ h
  have hle : (s.val.toNat + 1) * task.party.sessionPeriod.val.toNat ≤
      min (task.party.client.finalizedNumber + 1) (2 ^ 32 - 1) :=
    (Nat.le_div_iff_mul_le hperiod).mp h
  rw [lastBlockOfSession_eq hperiod (by omega), finalNumber]
  omega

theorem Over.step (h : Over task s) (hstep : Step task event task') : Over task' s := by
  have hfinalized := finalizedNumber_le hstep
  unfold Over at h ⊢
  rw [(step_frame hstep).1]
  exact h.trans_le (Nat.div_le_div_right (by omega))

theorem Pruned.kept_step (h : Pruned task) (hstep : Step task event task')
    (hkept : task.party.sessionAuthorities.lookup s = some authorities ∨ Over task s) :
    task'.party.sessionAuthorities.lookup s = some authorities ∨ Over task' s := by
  obtain hlookup | hover := hkept
  · obtain hsame | ⟨sessionId, read, hposition, hinsert⟩ | ⟨sessionId, hposition, hten, hprune⟩ :=
      map_cases hstep
    · exact .inl (hsame ▸ hlookup)
    · -- the session that is read is new
      have hwindow := h.window
      rw [hposition] at hwindow
      have hmem : s ∈ task.party.sessionAuthorities.keys := by
        rw [Finmap.mem_keys, ← Finmap.lookup_isSome, hlookup]
        rfl
      have hlt := (hwindow s hmem).2
      have hne : s ≠ sessionId := fun he => Nat.lt_irrefl _ (he ▸ hlt)
      rw [hinsert, FiniteMap.lookup_insert, if_neg hne]
      exact .inl hlookup
    · rw [hprune, pruneSessionData, FiniteMap.lookup_retain, hlookup]
      by_cases hle : sessionId.val - 10 ≤ s.val
      · simp [hle]
      · right
        have hfits := h.fits sessionId (by rw [hposition]; rfl)
        have hfinalized := h.order sessionId (by rw [hposition]; rfl)
        have hover := over_of_finalized hfits h.period hfinalized
        have hlt : s.val.toNat < sessionId.val.toNat := by
          rw [UInt32.not_le, UInt32.lt_iff_toNat_lt, UInt32.toNat_sub_of_le _ _ hten] at hle
          omega
        have hsmaller : Over task s := hlt.trans hover
        exact hsmaller.step hstep
  · exact .inr (hover.step hstep)

private structure StaysIn (party : ConsensusParty Hash A) (s : SessionId) (task' : Task Hash A) :
    Prop where
  map : task'.party.sessionAuthorities = party.sessionAuthorities
  period : task'.party.sessionPeriod = party.sessionPeriod
  begun : ∀ s', BegunAt task'.position s' → s' = s
  window : ∀ sessionAuthorities, Window sessionAuthorities s.val.toNat (s.val.toNat + 1) →
    WindowAt sessionAuthorities task'.position

omit [DecidableEq A] in
private theorem StaysIn.pruned {position : Position A} (hstays : StaysIn party s task')
    (h : Pruned ⟨party, position⟩) (horder : InOrder task') (hbegun : BegunAt position s)
    (hwindow : Window party.sessionAuthorities s.val.toNat (s.val.toNat + 1)) : Pruned task' := by
  constructor
  · rw [hstays.period]
    exact h.period
  · exact horder
  · intro s' hs'
    rw [hstays.period, hstays.begun s' hs']
    exact h.fits s hbegun
  · rw [hstays.map]
    exact hstays.window _ hwindow

omit [DecidableEq A] in
private theorem staysIn_panicked (panic : Panic) : StaysIn party s ⟨party, .panicked panic⟩ :=
  ⟨rfl, rfl, fun _ hs => hs.elim, fun _ hw => ⟨_, hw⟩⟩

omit [DecidableEq A] in
private theorem staysIn_left : StaysIn party s ⟨party, .left s⟩ :=
  ⟨rfl, rfl, fun _ hs => hs, fun _ hw => hw⟩

omit [DecidableEq A] in
private theorem staysIn_joining : StaysIn party s ⟨party, .joining s authorities⟩ :=
  ⟨rfl, rfl, fun _ hs => hs, fun _ hw => hw⟩

omit [DecidableEq A] in
private theorem checkBest_staysIn : StaysIn party s (party.checkBest s authorities) := by
  unfold checkBest
  split
  · exact ⟨rfl, rfl, fun _ hs => hs, fun _ hw => hw⟩
  · exact staysIn_joining

omit [DecidableEq A] in
private theorem attemptSkip_staysIn (attempt : ℕ) :
    StaysIn party s (party.attemptSkip s authorities attempt) := by
  unfold attemptSkip
  split
  · exact staysIn_left
  · split
    · exact ⟨rfl, rfl, fun _ hs => hs, fun _ hw => hw⟩
    · exact staysIn_joining

private theorem join_staysIn (bestChain : Option (AlephData Hash)) :
    StaysIn party s (party.join s authorities bestChain) := by
  unfold join
  split
  · exact ⟨rfl, rfl, fun _ hs => hs, fun _ hw => hw⟩
  · split
    · exact staysIn_panicked _
    · exact staysIn_panicked _
    · exact ⟨rfl, rfl, fun _ hs => hs, fun _ hw => hw⟩

omit [DecidableEq A] in
private theorem poll_staysIn (maybeNodeId : Option NodeIndex) :
    StaysIn party s (party.poll s maybeNodeId) := by
  unfold poll
  split
  · split
    · exact ⟨rfl, rfl, fun _ hs => hs, fun _ hw => hw⟩
    · exact staysIn_left
  · exact ⟨rfl, rfl, fun _ hs => hs, fun _ hw => hw⟩

omit [DecidableEq A] in
private theorem leave_window (hfits : Fits s party.sessionPeriod)
    (hperiod : 0 < party.sessionPeriod.val.toNat)
    (h : Window party.sessionAuthorities s.val.toNat (s.val.toNat + 1)) :
    WindowAt (party.leave s).party.sessionAuthorities (party.leave s).position := by
  unfold Fits at hfits
  have hle : s.val.toNat + 1 ≤ (s.val.toNat + 1) * party.sessionPeriod.val.toNat :=
    Nat.le_mul_of_pos_right _ hperiod
  have hnext : (s.val + 1).toNat = s.val.toNat + 1 := by
    rw [UInt32.toNat_add, UInt32.toNat_one, Nat.mod_eq_of_lt (by omega)]
  unfold leave
  dsimp only
  split
  · next hprunes =>
    obtain ⟨hten, hmultiple⟩ := hprunes
    have hmod : s.val.toNat % 10 = 0 := by
      rw [← UInt32.toNat_inj, UInt32.toNat_mod] at hmultiple
      exact hmultiple
    intro s' hs'
    obtain ⟨authorities, hlookup⟩ := (FiniteMap.mem_keys_iff _ _).mp hs'
    rw [pruneSessionData, FiniteMap.lookup_retain, Option.filter_eq_some_iff] at hlookup
    obtain ⟨hbefore, hkept⟩ := hlookup
    have hupper := (h s' ((FiniteMap.mem_keys_iff _ _).mpr ⟨_, hbefore⟩)).2
    rw [decide_eq_true_eq, UInt32.le_iff_toNat_le, UInt32.toNat_sub_of_le _ _ hten] at hkept
    rw [hnext, Nat.add_sub_cancel, ← Nat.mul_div_assoc _ (Nat.dvd_of_mod_eq_zero hmod),
      Nat.mul_div_cancel_left _ (by decide)]
    exact ⟨hkept, hupper⟩
  · next hprunes =>
    show Window party.sessionAuthorities (s.val + 1).toNat (s.val + 1).toNat
    rw [hnext]
    refine h.mono ?_ (Nat.le_refl _)
    have hcases : s.val.toNat < 10 ∨ s.val.toNat % 10 ≠ 0 := by
      by_contra hboth
      rw [not_or, Nat.not_lt, ne_eq, not_not] at hboth
      apply hprunes
      refine ⟨UInt32.le_iff_toNat_le.mpr hboth.1, ?_⟩
      rw [← UInt32.toNat_inj, UInt32.toNat_mod]
      exact hboth.2
    omega

omit [DecidableEq A] in
private theorem start_frame (party : ConsensusParty Hash A) :
    ∃ position, party.start = ⟨party, position⟩ ∧ (∀ s, ¬BegunAt position s) ∧
      (party.sessionAuthorities = ∅ → WindowAt party.sessionAuthorities position) := by
  have hempty : ∀ current upper, party.sessionAuthorities = ∅ →
      Window party.sessionAuthorities current upper := by
    intro current upper hnone s hs
    rw [hnone] at hs
    simp at hs
  unfold start
  split
  · exact ⟨_, rfl, fun _ hs => hs, hempty _ _⟩
  · exact ⟨_, rfl, fun _ hs => hs, fun hnone => ⟨0, hempty _ _ hnone⟩⟩

theorem pruned_step (h : Pruned task) (hstep : Guarded Step Undisturbed task event task') :
    Pruned task' := by
  obtain ⟨hundisturbed, hstep⟩ := hstep
  have horder := inOrder_step h.order ⟨hundisturbed.answersInTime h.order hstep, hstep⟩
  cases hstep with
  | @started party =>
    obtain ⟨position, hstart, hnotBegun, hwindow⟩ := start_frame party
    rw [hstart] at horder ⊢
    exact ⟨h.period, horder, fun s hs => (hnotBegun s hs).elim, hwindow h.window⟩
  | @sessionBegun party currId =>
    refine ⟨h.period, horder, ?_, h.window⟩
    intro s hs
    have hsession : s = ⟨currId⟩ := hs
    rw [hsession]
    exact hundisturbed.2 _ rfl
  | @genesisAuthorities party sessionId answer =>
    cases answer with
    | none =>
      have hwindow := Window.mono h.window (Nat.le_refl _) (Nat.le_succ _)
      exact (staysIn_panicked _).pruned h horder rfl hwindow
    | some authorities => exact ⟨h.period, horder, h.fits, Window.insert h.window⟩
  | @nextSessionAuthorities party sessionId block answer =>
    have hwindow := Window.mono h.window (Nat.le_refl _) (Nat.le_succ _)
    cases answer with
    | failed => exact staysIn_left.pruned h horder rfl hwindow
    | refused => exact (staysIn_panicked _).pruned h horder rfl hwindow
    | answered authorities => exact ⟨h.period, horder, h.fits, Window.insert h.window⟩
  | bestChecked => exact checkBest_staysIn.pruned h horder rfl h.window
  | attempted => exact (attemptSkip_staysIn _).pruned h horder rfl h.window
  | joined => exact (join_staysIn _).pruned h horder rfl h.window
  | polled => exact (poll_staysIn _).pruned h horder rfl h.window
  | @sessionLeft party sessionId =>
    have hfits := h.fits sessionId rfl
    obtain ⟨sessionAuthorities, hleave⟩ := leave_frame party sessionId
    have hwindow := leave_window hfits h.period h.window
    rw [hleave] at horder hwindow ⊢
    exact ⟨h.period, horder, fun s hs => hs.elim, hwindow⟩
  | clientGrown => exact ⟨h.period, horder, h.fits, h.window⟩

end Steps
end AlephNode.ConsensusParty
